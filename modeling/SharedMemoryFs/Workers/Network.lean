import SharedMemoryFs.Places.SabSchedule
import SharedMemoryFs.Workers.MutationClient

/-!
# Workers of a shared virtual place

The main kernel and any number of workers, joined by ports that keep the order of
their messages.  A worker's mutations are requests to the main kernel; what the main
kernel commits reaches every linked worker as an update, and the response to a
request follows on the same port.
-/

namespace SharedMemoryFs

open Foundation

/-- {lit}`#mutate`: the keys of a request in canonical form, if they have one. -/
def Mutation.canonical : Mutation -> Option Mutation
  | Mutation.write key data exclusive =>
      (PlaceFiles.canonicalKey key).map (fun key => Mutation.write key data exclusive)
  | Mutation.append key data =>
      (PlaceFiles.canonicalKey key).map (fun key => Mutation.append key data)
  | Mutation.unlink key directory =>
      (PlaceFiles.canonicalKey key).map (fun key => Mutation.unlink key directory)
  | Mutation.mkdir key recursive =>
      (PlaceFiles.canonicalKey key).map (fun key => Mutation.mkdir key recursive)
  | Mutation.rm key directory force recursive =>
      (PlaceFiles.canonicalKey key).map (fun key => Mutation.rm key directory force recursive)
  | Mutation.rename source target directory =>
      (PlaceFiles.canonicalKey source).bind (fun source =>
        (PlaceFiles.canonicalKey target).map (fun target =>
          Mutation.rename source target directory))

/-- A message from the main kernel.  {lit}`commits` counts the commits before it was
posted; nothing reads it. -/
inductive Message where
  | update (changes : List Change) (commits : Nat)
  | mutated (id : Nat) (error : Option ErrorRecord) (commits : Nat)

/-- One worker and its link.  {lit}`version` counts the commits its projection
reflects, {lit}`sent` lists the requests it posted and {lit}`served` the task of each
request the main kernel accepted; nothing reads them. -/
structure RemoteWorker where
  /-- The main kernel posts to the link and hears from it. -/
  linked : Bool
  /-- The worker hears from the link. -/
  attached : Bool
  requests : List (Nat × Mutation)
  inbox : List Message
  client : MutationClient
  files : Files
  /-- Accepted requests whose response has not been posted. -/
  owed : List (Nat × Nat)
  version : Nat
  sent : List (Nat × Mutation)
  served : List (Nat × Nat)

structure Network where
  main : SabPlace
  workers : List RemoteWorker

namespace RemoteWorker

/-- {lit}`link()` and {lit}`attach()`: a projection of the snapshot. -/
def linkedTo (main : SabPlace) : RemoteWorker :=
  { linked := true
    attached := true
    requests := []
    inbox := []
    client := MutationClient.new
    files := main.files
    owed := []
    version := main.log.length
    sent := []
    served := [] }

def post (worker : RemoteWorker) (message : Message) : RemoteWorker :=
  if worker.linked then { worker with inbox := worker.inbox ++ [message] } else worker

/-- A request posted by the client. -/
def request (worker : RemoteWorker) (op : Mutation) : RemoteWorker :=
  { worker with
    client := worker.client.request
    requests := worker.requests ++ [(worker.client.nextId + 1, op)]
    sent := worker.sent ++ [(worker.client.nextId + 1, op)] }

/-- {lit}`RemoteStore`: a mutation of the worker. -/
def mutate (worker : RemoteWorker) (op : Mutation) (posted : Bool) : RemoteWorker :=
  if !worker.client.closed ∧ posted then worker.request op
  else { worker with client := worker.client.send posted }

/-- A message arrives. -/
def receive (worker : RemoteWorker) : Message -> RemoteWorker
  | Message.update changes commits =>
      { worker with files := SabStore.flush worker.files changes, version := commits }
  | Message.mutated id error commits =>
      { worker with client := worker.client.handle id error, version := commits }

/-- The main kernel accepted a request as a task. -/
def accepted (worker : RemoteWorker) (id task : Nat) (rest : List (Nat × Mutation)) : RemoteWorker :=
  { worker with
    requests := rest
    owed := worker.owed ++ [(id, task)]
    served := worker.served ++ [(id, task)] }

/-- The port is closed on the worker's side. -/
def detach (worker : RemoteWorker) : RemoteWorker :=
  { worker with attached := false, inbox := [], client := worker.client.close }

/-- The port is closed on the main kernel's side. -/
def unlink (worker : RemoteWorker) : RemoteWorker :=
  { worker with linked := false, requests := [], owed := [] }

end RemoteWorker

namespace Network

def initial (files : Files) : Network := ⟨SabPlace.initial files, []⟩

def setWorker (n : Network) (w : Nat) (worker : RemoteWorker) : Network :=
  { n with workers := n.workers.set w worker }

/-- Post a message to every link. -/
def broadcast (n : Network) (message : Message) : Network :=
  { n with workers := n.workers.map (fun worker => worker.post message) }

/-- What {lit}`#flush` posts of the changes it committed. -/
def publish (n : Network) (changes : List Change) : Network :=
  if changes.isEmpty then n
  else n.broadcast (Message.update changes n.main.log.length)

/-- The error of a response, if any. -/
def errorOfResult (record : ErrorRecord) : Except Refusal Unit -> Option ErrorRecord
  | Except.ok () => none
  | Except.error _ => some record

/-- One atomic step of the main kernel, of a worker, or of a port. -/
inductive Step (place : Place) : Network -> Network -> Prop where
  /-- A new worker. -/
  | link : Step place n { n with workers := n.workers ++ [RemoteWorker.linkedTo n.main] }
  /-- A mutation of the main thread. -/
  | mutate (op : Mutation) : op.Canonical ->
      Step place n { n with main := n.main.request op }
  /-- A task of the main kernel goes on and commits nothing. -/
  | advance (main : SabPlace) : SabPlace.Step place n.main main ->
      main.tasks.length = n.main.tasks.length -> main.log = n.main.log ->
      Step place n { n with main := main }
  /-- A task commits, and its changes are posted. -/
  | commit (main : SabPlace) (c : Committed) (changes : List Change) :
      SabPlace.Step place n.main main -> main.tasks.length = n.main.tasks.length ->
      main.log = n.main.log ++ [c] -> main.files = SabStore.flush n.main.files changes ->
      Step place n (Network.publish { n with main := main } changes)
  /-- An update that touches nothing of the place: a compaction, another place. -/
  | other : Step place n (n.broadcast (Message.update [] n.main.log.length))
  | send (w : Nat) (worker : RemoteWorker) (op : Mutation) (posted : Bool) :
      n.workers[w]? = some worker -> Step place n (n.setWorker w (worker.mutate op posted))
  /-- A request arrives and becomes a task. -/
  | serve (w : Nat) (worker : RemoteWorker) (id : Nat) (op op' : Mutation)
      (rest : List (Nat × Mutation)) :
      n.workers[w]? = some worker -> worker.linked = true ->
      worker.requests = (id, op) :: rest -> op.canonical = some op' ->
      Step place n
        (Network.setWorker { n with main := n.main.request op' } w
          (worker.accepted id n.main.tasks.length rest))
  /-- A request arrives whose keys are no keys. -/
  | refuse (w : Nat) (worker : RemoteWorker) (id : Nat) (op : Mutation)
      (rest : List (Nat × Mutation)) (record : ErrorRecord) :
      n.workers[w]? = some worker -> worker.linked = true ->
      worker.requests = (id, op) :: rest -> op.canonical = none ->
      Step place n
        (n.setWorker w (RemoteWorker.post { worker with requests := rest }
          (Message.mutated id (some record) n.main.log.length)))
  /-- The task of a request has settled, and its response is posted. -/
  | reply (w : Nat) (worker : RemoteWorker) (id taskId : Nat) (task : MutationTask)
      (result : Except Refusal Unit) (record : ErrorRecord) :
      n.workers[w]? = some worker -> worker.linked = true -> (id, taskId) ∈ worker.owed ->
      n.main.tasks[taskId]? = some task -> task.status = Status.settled result ->
      Step place n
        (n.setWorker w (RemoteWorker.post { worker with owed := worker.owed.erase (id, taskId) }
          (Message.mutated id (errorOfResult record result) n.main.log.length)))
  | deliver (w : Nat) (worker : RemoteWorker) (message : Message) (rest : List Message) :
      n.workers[w]? = some worker -> worker.attached = true ->
      worker.inbox = message :: rest ->
      Step place n (n.setWorker w (RemoteWorker.receive { worker with inbox := rest } message))
  | detach (w : Nat) (worker : RemoteWorker) :
      n.workers[w]? = some worker -> Step place n (n.setWorker w worker.detach)
  | unlink (w : Nat) (worker : RemoteWorker) :
      n.workers[w]? = some worker -> Step place n (n.setWorker w worker.unlink)

inductive Reachable (place : Place) (files : Files) : Network -> Prop where
  | initial : Reachable place files (initial files)
  | step : Reachable place files n -> Step place n n' -> Reachable place files n'

end Network

end SharedMemoryFs
