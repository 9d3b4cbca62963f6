import SharedMemoryFs.Streams.ReadStream

/-!
# Streams and leases of one thread

A thread, the main one or a worker's, with the streams and leases it handed out, over
the whole system.  Everything else that happens is a step of the system: the other
threads, updates and the messages between them.
-/

namespace SharedMemoryFs

open Foundation FilesystemCache

namespace Pins

/-- {lit}`close`, before it runs the closers. -/
def close (p : Pins) : Pins :=
  { counts := OrderedMap.empty
    retired := OrderedMap.empty
    held := p.held }

end Pins

namespace VfsKernel

def acquire (k : VfsKernel) (who : Holder) (consumer : ConsumerId) (slot : Slot) : VfsKernel :=
  match who with
  | Holder.main => { k with main := k.main.acquire consumer slot }
  | Holder.link id =>
      match k.links.get id with
      | none => k
      | some link =>
          match link.worker with
          | Worker.attached t =>
              k.setLink id { link with worker := Worker.attached (t.acquire consumer slot) }
          | _ => k

def release (k : VfsKernel) (who : Holder) (consumer : ConsumerId) : VfsKernel :=
  match who with
  | Holder.main => k.releaseMain consumer
  | Holder.link id =>
      match k.links.get id with
      | none => k
      | some link =>
          match link.worker with
          | Worker.attached t => k.releaseWorker id link t consumer
          | _ => k

/-- A worker that closes its kernel closes its port.  What the main thread does once
it closed its own is left open. -/
def leave (k : VfsKernel) (who : Holder) : VfsKernel :=
  match who with
  | Holder.main => k
  | Holder.link id =>
      match k.links.get id with
      | none => k
      | some link => k.setLink id { link with worker := Worker.exited }

end VfsKernel

/-- {lit}`closed` holds the pins of the thread once its kernel is closed.  Consumers
are numbered in the order they were pinned; {lit}`drops` is a history of the closures
that reached {lit}`#drop`. -/
structure Session where
  kernel : VfsKernel
  closed : Option Pins
  streams : OrderedMap ConsumerId VfsReadStream
  next : ConsumerId
  drops : List ConsumerId

inductive StreamResult where
  | missing
  | onDisk
  | thrown (error : StreamError)
  | stream (consumer : ConsumerId)
deriving DecidableEq, Repr

def File.length (file : File) : Nat :=
  match file.content.data with
  | FileData.view _ _ length => length
  | _ => 0

namespace Session

variable (who : Holder)

def pins (s : Session) : Pins :=
  match s.closed with
  | some pins => pins
  | none => ((s.kernel.thread? who).map Thread.pins).getD Pins.new

def holds (s : Session) (consumer : ConsumerId) : Option File :=
  (s.pins who).held.get consumer

/-- The projection is empty once the kernel is closed. -/
def file (s : Session) (slot : Slot) : Option File :=
  match s.closed with
  | some _ => none
  | none => (s.kernel.thread? who).bind (fun t => t.files.get slot)

/-- {lit}`#pin`, for a file of the projection. -/
def pin (s : Session) (slot : Slot) : Session :=
  { s with
    kernel := s.kernel.acquire who s.next slot
    next := s.next + 1 }

/-- Calling the closure {lit}`acquire` returned. -/
def releaseHandle (s : Session) (consumer : ConsumerId) : Session :=
  let drops := if (s.holds who consumer).isSome then s.drops ++ [consumer] else s.drops
  match s.closed with
  | some pins => { s with closed := some (pins.releaseHandle consumer).1, drops := drops }
  | none => { s with kernel := s.kernel.release who consumer, drops := drops }

/-- {lit}`stream.destroy()`, which {lit}`Readable` also calls at the end, on an error
and for an aborted signal; it runs the hook of the stream once. -/
def destroy (s : Session) (consumer : ConsumerId) : Session :=
  match s.streams.get consumer with
  | none => s
  | some stream =>
      if stream.destroyed then s
      else
        let stopped := { s with
          streams := s.streams.set consumer { stream with destroyed := true } }
        if stream.borrowed then stopped else stopped.releaseHandle who consumer

def markReleased (s : Session) (consumer : ConsumerId) : Session :=
  match s.streams.get consumer with
  | none => s
  | some stream =>
      { s with streams := s.streams.set consumer { stream with released := true } }

/-- {lit}`stream.release()`, also by way of {lit}`Symbol.dispose`. -/
def release (s : Session) (consumer : ConsumerId) : Session :=
  match s.streams.get consumer with
  | none => s
  | some _ => ((s.destroy who consumer).releaseHandle who consumer).markReleased consumer

/-- {lit}`Readable` calls {lit}`read` until it is destroyed or was given null. -/
def read (s : Session) (consumer : ConsumerId) : Session :=
  match s.streams.get consumer with
  | none => s
  | some stream =>
      if stream.destroyed || stream.ended then s
      else
        { s with
          streams := s.streams.set consumer
            (stream.read (stream.file.bytes s.kernel.cache.mem)) }

/-- {lit}`#stream`. -/
def stream (s : Session) (zeroCopy : Bool) (slot : Slot) (file : File)
    (options : StreamOptions) : Session × StreamResult :=
  match borrowedOf zeroCopy options with
  | Except.error error => (s, StreamResult.thrown error)
  | Except.ok borrowed =>
      match rangeOf options file.length with
      | Except.error error => (s, StreamResult.thrown error)
      | Except.ok range =>
          let pinned := s.pin who slot
          let refused := (pinned.releaseHandle who s.next,
            StreamResult.thrown StreamError.readable)
          match highWaterMarkOf options.highWaterMark with
          | none => refused
          | some highWaterMark =>
              if options.encoding = StreamEncoding.unknown ∨
                  options.signal = Signal.invalid then refused
              else
                let opened := { pinned with
                  streams := pinned.streams.set s.next
                    (VfsReadStream.new file range highWaterMark
                      (borrowed && decide (options.encoding = StreamEncoding.none))) }
                (if options.signal = Signal.aborted then opened.destroy who s.next
                  else opened, StreamResult.stream s.next)

/-- {lit}`createReadStream`, for a key that leads to {lit}`slot`. -/
def createReadStream (s : Session) (zeroCopy : Bool) (slot : Slot) (options : StreamOptions) :
    Session × StreamResult :=
  match s.file who slot with
  | none => (s, StreamResult.missing)
  | some file =>
      if file.content.data = FileData.null then (s, StreamResult.onDisk)
      else s.stream who zeroCopy slot file options

/-- {lit}`readFileView` of a place with {lit}`fs.zeroCopy`. -/
def readFileView (s : Session) (slot : Slot) : Session :=
  match s.file who slot with
  | none => s
  | some file => if file.content.data = FileData.null then s else s.pin who slot

/-- The streams whose shutdown hook is still there. -/
def closers (s : Session) : List ConsumerId :=
  s.streams.keys.filter (fun consumer => (s.holds who consumer).isSome)

/-- {lit}`close()` of the kernel of this thread, as far as its consumers go. -/
def close (s : Session) : Session :=
  match s.closed with
  | some _ => s
  | none =>
      (s.closers who).foldl (destroy who)
        { s with
          kernel := s.kernel.leave who
          closed := some (s.pins who).close }

end Session

open VfsKernel in
/-- One call of this thread, or a step of the system around it.  Until its kernel is
closed, nobody else touches its consumers. -/
inductive Session.Step (fileExt : Key -> Ext) (who : Holder) : Session -> Session -> Prop where
  | system (k : VfsKernel) :
      NoisyStep fileExt s.kernel k ->
      (s.closed = none ->
        (k.thread? who).map Thread.heldPins = (s.kernel.thread? who).map Thread.heldPins) ->
      Step fileExt who s { s with kernel := k }
  | create (zeroCopy : Bool) (slot : Slot) (options : StreamOptions) :
      Step fileExt who s (s.createReadStream who zeroCopy slot options).1
  | read (consumer : ConsumerId) : Step fileExt who s (s.read consumer)
  | destroy (consumer : ConsumerId) : Step fileExt who s (s.destroy who consumer)
  | release (consumer : ConsumerId) : Step fileExt who s (s.release who consumer)
  | view (slot : Slot) : Step fileExt who s (s.readFileView who slot)
  | endView (consumer : ConsumerId) :
      s.streams.get consumer = none -> Step fileExt who s (s.releaseHandle who consumer)
  | close : Step fileExt who s (s.close who)

/-- A thread that pinned nothing yet. -/
def Session.initial (k : VfsKernel) : Session :=
  { kernel := k
    closed := none
    streams := OrderedMap.empty
    next := 0
    drops := [] }

inductive Session.Reachable (fileExt : Key -> Ext) (who : Holder) : Session -> Prop where
  | initial (k : VfsKernel) (t : Thread) :
      NoisyReachable fileExt k -> k.thread? who = some t ->
      t.pins.held.size = 0 -> Reachable fileExt who (Session.initial k)
  | step : Reachable fileExt who s -> Session.Step fileExt who s s' ->
      Reachable fileExt who s'

inductive Session.Run (fileExt : Key -> Ext) (who : Holder) : Session -> Session -> Prop where
  | refl : Run fileExt who s s
  | step : Run fileExt who s s' -> Session.Step fileExt who s' s'' -> Run fileExt who s s''

end SharedMemoryFs
