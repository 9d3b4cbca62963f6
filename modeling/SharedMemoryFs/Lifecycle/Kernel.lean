import SharedMemoryFs.Foundation.Async
import SharedMemoryFs.Places.SabStore
import SharedMemoryFs.Routing.Router

/-!
# The kernel between its awaits

The main kernel at the level of content, from its construction to its end, and
the publication pipeline as asynchronous functions over it.  A publication
checks at its own steps whether the kernel was closed meanwhile.  Where bytes lie
and when they are freed is no part of this model.
-/

namespace SharedMemoryFs

open Foundation

inductive KernelState where
  | new
  | initializing
  | ready
  | closed
deriving DecidableEq, Repr

/-- A place as the kernel registered it. -/
structure HostedPlace where
  place : Place
  provider : Provider
  virtual : Bool
  scanExt : Option (List Ext)

def HostedPlace.name (hosted : HostedPlace) : PlaceName := hosted.place.config.name

namespace Lifecycle

abbrev EpochRef := Nat

/-- The changes staged under one epoch, and the sources it published already. -/
structure Epoch where
  changes : OrderedMap Slot (Option PlaceFile)
  seen : List (PlaceName × Key)

def Epoch.new : Epoch := { changes := OrderedMap.empty, seen := [] }

/-- One {lit}`vfs-update`: versions published, and keys that went. -/
abbrev Delta := List (Slot × Option PlaceFile)

/-- The index lives in {lit}`cache`, which {lit}`close` drops with everything in it.
{lit}`files` are the projections of the places, {lit}`sources` what watcher events
may unpublish, and {lit}`rechecks` the armed timers.  {lit}`posted` records the
updates sent and {lit}`stored` the sources taken through the pipeline; no operation
reads the two. -/
structure Kernel where
  state : KernelState
  cache : Option (PlaceName -> Files)
  files : PlaceName -> Files
  sources : PlaceName -> Option (PlaceFiles FileInput)
  watcher : Bool
  rechecks : OrderedMap (PlaceName × Key) HostedPlace
  epochs : OrderedMap EpochRef Epoch
  nextEpoch : EpochRef
  posted : List Delta
  stored : List (PlaceName × Key)

inductive DiskKind where
  | file
  | directory
  | other
deriving DecidableEq, Repr

structure DiskStat where
  kind : DiskKind
  stat : Stat
deriving DecidableEq, Repr

/-- Where the kernel awaits.  {lit}`turn` is the end of one of its own functions. -/
inductive Ask where
  | turn
  | read (hosted : HostedPlace) (key : Key) (file : FileInput)
  | allocate (hosted : HostedPlace) (key : EntryKey) (input : FileInput)
  | entryBytes (hosted : HostedPlace) (key : Key) (data : Bytes)
  | compress (hosted : HostedPlace) (key : Key)
  | stat (hosted : HostedPlace) (key : Key)
  | scan (hosted : HostedPlace) (start : Key)

/-- How an allocation ends: whether the pool takes it, and for an input without
data the bytes of the file it stands for, read into the pool or left on disk. -/
structure Placed where
  fits : Bool
  read : Option Bytes

def Ask.reply : Ask -> Type
  | Ask.turn => Unit
  | Ask.read _ _ _ => Option Bytes
  | Ask.allocate _ _ _ => Placed
  | Ask.entryBytes _ _ _ => Option Bytes
  | Ask.compress _ _ => Encoding -> Option Bytes
  | Ask.stat _ _ => Option DiskStat
  | Ask.scan _ _ => List (Key × FileInput)

/-- Why a function of the kernel throws; {lit}`missing` is a property read of null
or undefined. -/
inductive Fault where
  | closed
  | missing
  | unreadable
  | refused (refusal : Refusal)

abbrev Prog := Async Ask.reply Kernel Fault

/-- {lit}`await` of one of the kernel's own functions. -/
def call (x : Prog alpha) : Prog alpha := Async.settle Ask.turn x

/-- {lit}`#alive`. -/
def alive : Prog Unit := do
  let k ← Async.read
  if k.state = KernelState.closed then Async.throw Fault.closed

/-- A property read of {lit}`this.cache` or {lit}`this.compressor`, both dropped
together. -/
def cached : Prog Unit := do
  let k ← Async.read
  if k.cache.isNone then Async.throw Fault.missing

namespace Kernel

/-- The state {lit}`close` leaves. -/
def close (k : Kernel) : Kernel :=
  { k with
    state := KernelState.closed
    cache := none
    files := fun _ => PlaceFiles.empty
    sources := fun _ => none
    watcher := false
    rechecks := OrderedMap.empty }

/-!
# Epochs
-/

def openEpoch (k : Kernel) : Kernel :=
  { k with epochs := k.epochs.set k.nextEpoch Epoch.new, nextEpoch := k.nextEpoch + 1 }

def epoch (k : Kernel) (ep : EpochRef) : Epoch := (k.epochs.get ep).getD Epoch.new

/-- {lit}`#stage`. -/
def stage (k : Kernel) (ep : EpochRef) (slot : Slot) (entry : Option PlaceFile) : Kernel :=
  { k with
    epochs := k.epochs.set ep
      { k.epoch ep with changes := (k.epoch ep).changes.set slot entry } }

def stageAll (k : Kernel) (ep : EpochRef) (changes : Delta) : Kernel :=
  changes.foldl (fun k change => k.stage ep change.1 change.2) k

def record (k : Kernel) (name : PlaceName) (key : Key) : Kernel :=
  { k with stored := (name, key) :: k.stored }

/-- {lit}`#unstage`. -/
def unstage (k : Kernel) (ep : EpochRef) (hosted : HostedPlace) (key : Key) : Kernel :=
  k.stageAll ep ((EntryKey.ofSource key :: hosted.place.companions key).map
    (fun companion => (⟨hosted.name, companion⟩, none)))

def setFiles (files : PlaceName -> Files) (name : PlaceName) (own : Files) :
    PlaceName -> Files :=
  Function.update files name own

def publishChange (files : PlaceName -> Files) (change : Slot × Option PlaceFile) :
    PlaceName -> Files :=
  setFiles files change.1.place
    (SabStore.publishEntry (files change.1.place) (change.1.key, change.2))

def removeChange (files : PlaceName -> Files) (change : Slot × Option PlaceFile) :
    PlaceName -> Files :=
  setFiles files change.1.place
    (SabStore.removeEntry (files change.1.place) (change.1.key, change.2))

/-- The loop of {lit}`#flush` over the changes: each goes into the index. -/
def putChange (index : PlaceName -> Files) (change : Slot × Option PlaceFile) :
    PlaceName -> Files :=
  removeChange (publishChange index change) change

/-- What an update reports: every new version, and every key that was indexed. -/
def delta (index : PlaceName -> Files) (changes : Delta) : Delta :=
  changes.filter (fun change =>
    change.2.isSome || (index change.1.place).has change.1.key)

/-- {lit}`#apply` on the main thread: entries go in before removals go out. -/
def apply (files : PlaceName -> Files) (update : Delta) : PlaceName -> Files :=
  update.foldl removeChange (update.foldl publishChange files)

/-- {lit}`#flush` of a kernel that is not closed. -/
def commit (k : Kernel) (index : PlaceName -> Files) (changes : Delta) : Kernel :=
  let update := delta index changes
  let indexed := { k with cache := some (changes.foldl putChange index) }
  if update.isEmpty then indexed
  else { indexed with files := apply k.files update, posted := k.posted ++ [update] }

end Kernel

def newEpoch : Prog EpochRef := do
  let k ← Async.read
  Async.set k.openEpoch (Async.done k.nextEpoch)

/-- A closed kernel publishes nothing. -/
def flush (ep : EpochRef) : Prog Unit := do
  let k ← Async.read
  let changes := (k.epoch ep).changes.entries
  if k.state = KernelState.closed then Async.done ()
  else
    match k.cache with
    | some index => Async.set (k.commit index changes) (Async.done ())
    | none => if changes.isEmpty then Async.done () else Async.throw Fault.missing

/-!
# The input of a publication
-/

/-- {lit}`prepareInput`, as an input that is not on disk. -/
def prepareInput (hosted : HostedPlace) (key : Key) (stat : Stat) (raw : Bytes)
    (preparer : Preparer) : Except Fault FileInput :=
  match (hosted.place.prepareInput key stat raw preparer).2 with
  | Except.error refusal => Except.error (Fault.refused refusal)
  | Except.ok file =>
      Except.ok
        { data := some file.data
          path := none
          stat := file.stat
          metadata := file.metadata
          scriptOptions := file.scriptOptions }

/-- The raw bytes of a file: in memory, or read from disk. -/
def rawOf (hosted : HostedPlace) (key : Key) (file : FileInput) : Prog Bytes :=
  match file.data with
  | some data => Async.done data
  | none => do
      cached
      match ← Async.ask (Ask.read hosted key file) with
      | some raw => Async.done raw
      | none => Async.throw Fault.unreadable

/-- {lit}`#input`. -/
def input (hosted : HostedPlace) (key : Key) (file : FileInput) : Prog FileInput :=
  match hosted.place.preparerOf key with
  | some preparer => do
      let raw ← rawOf hosted key file
      Async.ofExcept (prepareInput hosted key file.stat raw preparer)
  | none =>
      if hosted.provider = Provider.map then do
        let raw ← rawOf hosted key file
        Async.done { data := some raw, path := none, stat := file.stat }
      else Async.done file

/-!
# Storing one source
-/

/-- What a publication allocated so far, and the stale companions it drops. -/
structure Built where
  allocated : List (EntryKey × PlaceFile)
  dropped : List EntryKey

def Built.add (built : Built) (key : EntryKey) (file : PlaceFile) : Built :=
  { built with allocated := built.allocated ++ [(key, file)] }

def Built.drop (built : Built) (key : EntryKey) : Built :=
  { built with dropped := built.dropped ++ [key] }

def Built.changes (built : Built) (name : PlaceName) : Delta :=
  built.allocated.map (fun entry => (⟨name, entry.1⟩, some entry.2)) ++
    built.dropped.map (fun key => (⟨name, key⟩, none))

/-- {lit}`this.cache.allocate`: the bytes of the new entry, or none that fits. -/
def allocate (hosted : HostedPlace) (key : EntryKey) (input : FileInput) :
    Prog (Option Bytes) := do
  cached
  let placed ← Async.ask (Ask.allocate hosted key input)
  match input.data with
  | some data => Async.done (if placed.fits then some data else none)
  | none =>
      match placed.read with
      | some data => Async.done (some data)
      | none => Async.throw Fault.unreadable

def companionInput (file : PlaceFile) : FileInput :=
  { data := some file.data, path := none, stat := file.stat }

/-- The loop of {lit}`#bytecode`. -/
def bytecodeLoop (hosted : HostedPlace) (mtimeMs : Nat) :
    List Place.Code -> Built -> Prog Built
  | [], built => Async.done built
  | code :: rest, built =>
      match code.data with
      | some data => do
          let file := MapStore.codeFile mtimeMs data
          match ← allocate hosted code.key (companionInput file) with
          | some _ => bytecodeLoop hosted mtimeMs rest (built.add code.key file)
          | none =>
              if code.domain = BytecodeDomain.script then
                Async.throw (Fault.refused Refusal.scriptDoesNotFit)
              else bytecodeLoop hosted mtimeMs rest (built.drop code.key)
      | none =>
          if code.domain = BytecodeDomain.script then
            Async.throw (Fault.refused Refusal.scriptDoesNotCompile)
          else bytecodeLoop hosted mtimeMs rest (built.drop code.key)

/-- {lit}`#bytecode`. -/
def bytecode (hosted : HostedPlace) (key : Key) (source : PlaceFile) (built : Built) :
    Prog Built :=
  if hosted.place.bytecodeDomains key = [] then Async.done built
  else do
    cached
    match ← Async.ask (Ask.entryBytes hosted key source.data) with
    | some bytes =>
        bytecodeLoop hosted source.stat.mtimeMs
          (hosted.place.bytecodeFor key bytes source.scriptOptions) built
    | none => Async.throw Fault.unreadable

/-- The stored form of one representation. -/
def encodedFile (source : PlaceFile) (encoding : Encoding) (data : Bytes) : PlaceFile :=
  { data := data
    stat :=
      { size := data.length
        mtimeMs := source.stat.mtimeMs
        sourceSize := some source.stat.size
        encoding := some encoding } }

/-- The loop of {lit}`#compress`. -/
def compressLoop (hosted : HostedPlace) (key : Key) (source : PlaceFile) :
    List (Encoding × Option Bytes) -> Built -> Prog Built
  | [], built => Async.done built
  | (encoding, none) :: rest, built =>
      compressLoop hosted key source rest (built.drop (compressedKey key encoding))
  | (encoding, some data) :: rest, built => do
      let file := encodedFile source encoding data
      match ← allocate hosted (compressedKey key encoding) (companionInput file) with
      | some _ =>
          compressLoop hosted key source rest (built.add (compressedKey key encoding) file)
      | none =>
          compressLoop hosted key source rest (built.drop (compressedKey key encoding))

/-- {lit}`this.compressor.compress`; without the bytes every codec has nothing. -/
def encoders (hosted : HostedPlace) (key : Key) :
    Option Bytes -> Prog (Encoding -> Option Bytes)
  | some _ => do
      cached
      Async.ask (Ask.compress hosted key)
  | none => Async.done (fun _ => none)

/-- {lit}`#compress`. -/
def compress (hosted : HostedPlace) (key : Key) (source : PlaceFile) (built : Built) :
    Prog Built := do
  cached
  if hosted.place.config.compressible hosted.place.fileExt key then do
    let bytes ← Async.ask (Ask.entryBytes hosted key source.data)
    let encode ← encoders hosted key bytes
    alive
    compressLoop hosted key source
      (hosted.place.config.codecs.map (fun codec => (codec.encoding, encode codec.encoding)))
      built
  else Async.done built

/-- {lit}`#storeShared`. -/
def storeShared (ep : EpochRef) (hosted : HostedPlace) (key : Key) (input : FileInput) :
    Prog Unit := do
  match ← allocate hosted (EntryKey.ofSource key) input with
  | none => Async.throw (Fault.refused Refusal.sourceDoesNotFit)
  | some data =>
      let source : PlaceFile :=
        { data := data
          stat := input.stat
          scriptOptions := input.scriptOptions
          metadata := input.metadata }
      let placed : Built := { allocated := [(EntryKey.ofSource key, source)], dropped := [] }
      alive
      let compiled ← call (bytecode hosted key source placed)
      let built ← call (compress hosted key source compiled)
      alive
      Async.modify (fun k => (k.stageAll ep (built.changes hosted.name)).record hosted.name key)

/-- {lit}`place.store.publish` of a map place. -/
def publishMap (hosted : HostedPlace) (key : Key) (input : FileInput) : Prog Unit := do
  let k ← Async.read
  let file : PlaceFile :=
    { data := input.data.getD []
      stat := input.stat
      scriptOptions := input.scriptOptions
      metadata := input.metadata }
  match MapStore.publish hosted.place (k.files hosted.name) key file with
  | Except.error refusal => Async.throw (Fault.refused refusal)
  | Except.ok own =>
      Async.set
        ({ k with files := Kernel.setFiles k.files hosted.name own }.record hosted.name key)
        (Async.done ())

def trackSource (hosted : HostedPlace) (key : Key) (file : FileInput) (k : Kernel) : Kernel :=
  { k with
    sources := Function.update k.sources hosted.name
      ((k.sources hosted.name).map (fun source => source.set (EntryKey.ofSource key) file)) }

/-- {lit}`#publishEntry`. -/
def publishEntry (ep : EpochRef) (hosted : HostedPlace) (key : Key) (file : FileInput) :
    Prog Unit := do
  let canonical ← call (input hosted key file)
  alive
  if hosted.provider = Provider.map then publishMap hosted key canonical
  else call (storeShared ep hosted key canonical)
  Async.modify (trackSource hosted key file)

/-!
# Virtual places
-/

/-- {lit}`publishVirtual`. -/
def publishVirtual (hosted : HostedPlace) (key : Key) (raw : Bytes) (now : Nat) :
    Prog Unit := do
  let ep ← newEpoch
  call (publishEntry ep hosted key
    { data := some raw, path := none, stat := { size := raw.length, mtimeMs := now } })
  flush ep

/-- {lit}`unpublishVirtual`. -/
def unpublishVirtual (hosted : HostedPlace) (keys : List Key) : Prog Unit := do
  let ep ← newEpoch
  Async.modify (fun k => keys.foldl (fun k key => k.unstage ep hosted key) k)
  flush ep

/-- {lit}`renameVirtual`. -/
def renameVirtual (hosted : HostedPlace) (source target : Key) : Prog Unit := do
  let k ← Async.read
  match (k.files hosted.name).get (EntryKey.ofSource source) with
  | none => Async.throw Fault.missing
  | some file => do
      let ep ← newEpoch
      Async.modify (fun k => k.unstage ep hosted source)
      call (publishEntry ep hosted target
        { data := some file.data
          path := none
          stat := { size := file.data.length, mtimeMs := file.stat.mtimeMs } })
      flush ep

/-- The loop of {lit}`renameVirtualTree` over its moves. -/
def copyLoop (hosted : HostedPlace) :
    List (EntryKey × EntryKey) -> List SabStore.Copy -> Prog (List SabStore.Copy)
  | [], copies => Async.done copies
  | (key, target) :: rest, copies => do
      let k ← Async.read
      match (k.files hosted.name).get key with
      | none => Async.throw Fault.missing
      | some file =>
          match ← allocate hosted target (companionInput file) with
          | none => Async.throw (Fault.refused (Refusal.copyDoesNotFit key))
          | some _ => do
              alive
              copyLoop hosted rest (copies ++ [(key, target, SabStore.copyOf file)])

/-- {lit}`renameVirtualTree`. -/
def renameVirtualTree (hosted : HostedPlace) (moves : List (EntryKey × EntryKey)) :
    Prog Unit := do
  let copies ← copyLoop hosted moves []
  let ep ← newEpoch
  Async.modify (fun k => k.stageAll ep
    ((SabStore.treeChanges copies).map (fun change => (⟨hosted.name, change.1⟩, change.2))))
  flush ep

end Lifecycle
end SharedMemoryFs
