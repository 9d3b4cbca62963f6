import SharedMemoryFs.Places.MapStore
import SharedMemoryFs.Places.MutationQueue

/-!
# Mutations of a shared virtual place

The store of a shared virtual place on the main thread, at the level of content:
what is published under which key, not where its bytes lie.  A mutation waits in
the queue, is validated in its turn and either takes effect at once or leaves a
publication running, which commits or fails later.  Several publications of
different keys run at the same time.
-/

namespace SharedMemoryFs

open Foundation

/-- What the environment decides about one mutation: the clock reading, what the
pool takes, and what the codecs answer. -/
structure Env where
  now : Nat
  fits : EntryKey -> Bool
  encode : Encoding -> Option Bytes

/-- A change of one epoch: a version to publish, or none to unpublish. -/
abbrev Change := EntryKey × Option PlaceFile

namespace SabStore

variable (place : Place)

/-!
# Publishing one key
-/

/-- The kernel's {lit}`#input` of a virtual write: the preparer runs on bytes the
kernel owns. -/
def input (key : Key) (raw : Bytes) (mtimeMs : Nat) : Except Refusal PlaceFile :=
  let stat : Stat := { size := raw.length, mtimeMs := mtimeMs }
  match place.preparerOf key with
  | none => Except.ok { data := raw, stat := stat }
  | some preparer => (place.prepareInput key stat raw preparer).2

/-- {lit}`#bytecode`: one change for each flavor, none for a stale companion. -/
def bytecodeChanges (env : Env) (mtimeMs : Nat) :
    List Place.Code -> Except Refusal (List Change)
  | [] => Except.ok []
  | code :: rest =>
      let placed := code.data.filter (fun _ => env.fits code.key)
      if placed.isNone ∧ code.domain = BytecodeDomain.script then
        Except.error
          (if code.data.isSome then Refusal.scriptDoesNotFit else Refusal.scriptDoesNotCompile)
      else do
        let changes ← bytecodeChanges env mtimeMs rest
        Except.ok ((code.key, placed.map (MapStore.codeFile mtimeMs)) :: changes)

/-- {lit}`#compress`: a codec that fails or does not fit drops its companion. -/
def compressedChanges (key : Key) (input : PlaceFile) (env : Env) : List Change :=
  if place.config.compressible place.fileExt key then
    place.config.codecs.map (fun codec =>
      (compressedKey key codec.encoding,
        ((env.encode codec.encoding).filter
            (fun _ => env.fits (compressedKey key codec.encoding))).map
          (fun data =>
            { data := data
              stat :=
                { size := data.length
                  mtimeMs := input.stat.mtimeMs
                  sourceSize := some input.stat.size
                  encoding := some codec.encoding } })))
  else []

/-- {lit}`#storeShared`: the source and what was built of it, then the stale
companions. -/
def storeShared (key : Key) (input : PlaceFile) (env : Env) : Except Refusal (List Change) :=
  if env.fits (EntryKey.ofSource key) then do
    let codes ← bytecodeChanges env input.stat.mtimeMs
      (place.bytecodeFor key input.data input.scriptOptions)
    let built := codes ++ compressedChanges place key input env
    Except.ok ((EntryKey.ofSource key, some input) ::
      (built.filter (fun change => change.2.isSome) ++
        built.filter (fun change => change.2.isNone)))
  else Except.error Refusal.sourceDoesNotFit

/-- {lit}`#unstage` of source keys. -/
def unstaged (keys : List Key) : List Change :=
  keys.flatMap (fun key =>
    (EntryKey.ofSource key :: place.companions key).map (fun k => (k, none)))

/-- One copy of {lit}`renameVirtualTree`. -/
def copyOf (file : PlaceFile) : PlaceFile := { data := file.data, stat := file.stat }

abbrev Copy := EntryKey × EntryKey × PlaceFile

def treeChanges (copies : List Copy) : List Change :=
  copies.flatMap (fun copy => [(copy.1, none), (copy.2.1, some copy.2.2)])

/-!
# Committing an epoch
-/

/-- {lit}`#stage` and then {lit}`#apply` of one epoch: a later change of a key
supersedes an earlier one, and entries go in before removals go out. -/
def staged (changes : List Change) : OrderedMap EntryKey (Option PlaceFile) :=
  changes.foldl (fun epoch change => epoch.set change.1 change.2) OrderedMap.empty

def publishEntry (files : Files) (change : Change) : Files :=
  match change.2 with
  | some file => files.set change.1 file
  | none => files

def removeEntry (files : Files) (change : Change) : Files :=
  match change.2 with
  | some _ => files
  | none => files.delete change.1

def flush (files : Files) (changes : List Change) : Files :=
  (staged changes).entries.foldl removeEntry
    ((staged changes).entries.foldl publishEntry files)

/-!
# One mutation in its turn
-/

/-- What a mutation does once the checks of its turn passed. -/
inductive Plan where
  /-- Take effect at once. -/
  | now (changes : List Change)
  /-- Publish under {lit}`target`, the keys {lit}`removed` going with it; the
  input is missing when its preparer failed. -/
  | publish (target : Key) (input : Except Refusal PlaceFile) (removed : List Key)
  /-- Copy a subtree. -/
  | move (moves : List (EntryKey × EntryKey))

/-- The keys a mutation locks, chosen when it is requested. -/
def locksOf (files : Files) : Mutation -> Option (List Key)
  | Mutation.rm _ _ _ _ => none
  | Mutation.rename source target directory =>
      if !directory ∧ files.hasSource source then some [source, target] else none
  | op => some op.keys

variable (files : Files) (creating : List Key)

/-- {lit}`#create`, up to the publication it starts. -/
def create (key : Key) (fail : Place.Fail) (input : Except Refusal PlaceFile)
    (removed : List Key) : Except Refusal Plan := do
  Place.checkHierarchy files key fail creating
  Except.ok (Plan.publish key input removed)

def write (key : Key) (data : Bytes) (exclusive : Bool) (now : Nat) : Except Refusal Plan := do
  let fail := place.failOn Syscall.openFile key
  (if exclusive then Place.checkExclusive files key fail else Except.ok ())
  create files creating key fail (input place key data now) []

def append (key : Key) (data : Bytes) (now : Nat) : Except Refusal Plan :=
  let fail := place.failOn Syscall.openFile key
  if (place.prepared key).isSome then
    Except.error (fail ErrorCode.enotsup (some "prepared source"))
  else
    let joined := match files.get (EntryKey.ofSource key) with
      | some current => current.data ++ data
      | none => data
    create files creating key fail (input place key joined now) []

def unlink (key : Key) (directory : Bool) : Except Refusal Plan :=
  if !directory ∧ files.hasSource key then Except.ok (Plan.now (unstaged place [key]))
  else
    let code :=
      if files.isDirectory key then ErrorCode.eisdir else Place.absentCode files key
    Except.error (place.failOn Syscall.unlink key code none)

def mkdir (key : Key) (recursive : Bool) : Except Refusal Plan := do
  Place.checkMkdir files key recursive (place.failOn Syscall.mkdir key) creating
  Except.ok (Plan.now [])

def rm (key : Key) (directory force recursive : Bool) : Except Refusal Plan :=
  if !directory ∧ files.hasSource key then Except.ok (Plan.now (unstaged place [key]))
  else
    let children := files.keysUnder key
    if children = [] then
      if force then Except.ok (Plan.now [])
      else Except.error (place.failOn Syscall.rm key (Place.absentCode files key) none)
    else if !recursive then Except.error (Refusal.isDirectory Syscall.rm (place.pathOf key))
    else Except.ok (Plan.now (unstaged place children))

/-- {lit}`locked` says that the rename locked its keys as a file. -/
def rename (locked : Bool) (source target : Key) (directory : Bool) : Except Refusal Plan :=
  let fail := place.failRename source target
  match files.get (EntryKey.ofSource source) with
  | none =>
      if !locked ∧ files.isDirectory source then do
        let moves ← place.subtreeMoves files source target creating
        Except.ok (Plan.move moves)
      else if (place.prepared source).isSome then
        Except.error (fail ErrorCode.enotsup (some "prepared source"))
      else Except.error (fail ErrorCode.enoent none)
  | some current =>
      if directory then Except.error (fail ErrorCode.enotdir none)
      else if (place.prepared source).isSome then
        Except.error (fail ErrorCode.enotsup (some "prepared source"))
      else
        create files creating target fail
          (input place target current.data current.stat.mtimeMs) [source]

def start (locked : Bool) (now : Nat) : Mutation -> Except Refusal Plan
  | Mutation.write key data exclusive => write place files creating key data exclusive now
  | Mutation.append key data => append place files creating key data now
  | Mutation.unlink key directory => unlink place files key directory
  | Mutation.mkdir key recursive => mkdir place files creating key recursive
  | Mutation.rm key directory force recursive => rm place files key directory force recursive
  | Mutation.rename source target directory =>
      rename place files creating locked source target directory

/-- The copies of a subtree, read and placed one after another. -/
def copiesOf (env : Env) : List (EntryKey × EntryKey) -> Except Refusal (List Copy)
  | [] => Except.ok []
  | move :: rest =>
      match files.get move.1 with
      | none => Except.error (Refusal.copyMissing move.1)
      | some file =>
          if env.fits move.2 then do
            let copies ← copiesOf env rest
            Except.ok ((move.1, move.2, copyOf file) :: copies)
          else Except.error (Refusal.copyDoesNotFit move.1)

/-- The changes a plan commits. -/
def Plan.changes (env : Env) : Plan -> Except Refusal (List Change)
  | Plan.now changes => Except.ok changes
  | Plan.publish target input removed => do
      let input ← input
      let changes ← storeShared place target input env
      Except.ok (unstaged place removed ++ changes)
  | Plan.move moves => do
      let copies ← copiesOf files env moves
      Except.ok (treeChanges copies)

/-- What one mutation on its own commits, from its request to its end. -/
def changes (env : Env) (op : Mutation) : Except Refusal (List Change) := do
  let plan ← start place files [] (locksOf files op).isSome env.now op
  plan.changes place files env

def run (env : Env) (op : Mutation) : Files × Except Refusal Unit :=
  match changes place files env op with
  | Except.error refusal => (files, Except.error refusal)
  | Except.ok changes => (flush files changes, Except.ok ())

end SabStore

/-!
# The place while mutations overlap
-/

/-- How far a mutation is.  {lit}`ended` is between the end of its publication
and the end of its turn. -/
inductive Status where
  | queued
  | storing (target : Key) (input : PlaceFile) (removed : List Key) (now : Nat)
  | copying (copies : List SabStore.Copy) (rest : List (EntryKey × EntryKey)) (now : Nat)
  | ended (creating : Option Key) (result : Except Refusal Unit)
  | settled (result : Except Refusal Unit)

structure MutationTask where
  op : Mutation
  queue : Accepted Key
  status : Status

/-- One successful mutation in the order of commits; no operation reads it. -/
structure Committed where
  task : Nat
  op : Mutation
  keys : Option (List Key)
  env : Env
  tree : Bool

/-- A mutation that was a subtree operation: a removal, or a rename that moved a
subtree. -/
def Committed.Subtree (c : Committed) : Prop :=
  c.tree = true ∨ exists key directory force recursive,
    c.op = Mutation.rm key directory force recursive

/-- A shared virtual place of the main thread.  Tasks are listed in the order of
acceptance. -/
structure SabPlace where
  files : Files
  creating : List Key
  locks : Locks Key
  tasks : List MutationTask
  log : List Committed

namespace SabPlace

def initial (files : Files) : SabPlace :=
  { files := files, creating := [], locks := Locks.new, tasks := [], log := [] }

def setTask (s : SabPlace) (id : Nat) (task : MutationTask) (status : Status) : SabPlace :=
  { s with tasks := s.tasks.set id { task with status := status } }

/-- {lit}`MutationQueue.run`. -/
def request (s : SabPlace) (op : Mutation) : SabPlace :=
  let keys := SabStore.locksOf s.files op
  { s with
    locks := s.locks.acquire s.tasks.length keys
    tasks := s.tasks ++
      [{ op := op
         queue := { keys := keys, prior := s.locks.prior keys }
         status := Status.queued }] }

def committed (s : SabPlace) (id : Nat) (task : MutationTask) (env : Env) (tree : Bool)
    (changes : List Change) (status : Status) : SabPlace :=
  { (s.setTask id task status) with
    files := SabStore.flush s.files changes
    log := s.log ++
      [{ task := id, op := task.op, keys := task.queue.keys, env := env, tree := tree }] }

/-- The environment of a mutation that asks it for nothing more. -/
def plainEnv (now : Nat) : Env :=
  { now := now, fits := fun _ => true, encode := fun _ => none }

/-- The turn of a task. -/
def start (place : Place) (s : SabPlace) (id : Nat) (task : MutationTask) (now : Nat) :
    SabPlace :=
  match SabStore.start place s.files s.creating task.queue.keys.isSome now task.op with
  | Except.error refusal => s.setTask id task (Status.settled (Except.error refusal))
  | Except.ok (SabStore.Plan.now changes) =>
      s.committed id task (plainEnv now) false changes (Status.settled (Except.ok ()))
  | Except.ok (SabStore.Plan.publish target (Except.ok input) removed) =>
      { (s.setTask id task (Status.storing target input removed now)) with
        creating := target :: s.creating }
  | Except.ok (SabStore.Plan.publish target (Except.error refusal) _) =>
      { (s.setTask id task (Status.ended (some target) (Except.error refusal))) with
        creating := target :: s.creating }
  | Except.ok (SabStore.Plan.move moves) => s.setTask id task (Status.copying [] moves now)

/-- The key leaves {lit}`#creating` and the task settles. -/
def settle (s : SabPlace) (id : Nat) (task : MutationTask) (creating : Option Key)
    (result : Except Refusal Unit) : SabPlace :=
  { (s.setTask id task (Status.settled result)) with
    creating := s.creating.filter (fun key => decide (some key ≠ creating)) }

/-- One atomic step of the place. -/
inductive Step (place : Place) : SabPlace -> SabPlace -> Prop where
  | request (op : Mutation) : op.Canonical -> Step place s (s.request op)
  | start (id : Nat) (task : MutationTask) (now : Nat) :
      s.tasks[id]? = some task -> task.status = Status.queued ->
      (forall m, m ∈ task.queue.prior ->
        exists other result, s.tasks[m]? = some other ∧ other.status = Status.settled result) ->
      Step place s (s.start place id task now)
  | copy (id : Nat) (task : MutationTask) (copies : List SabStore.Copy)
      (move : EntryKey × EntryKey) (rest : List (EntryKey × EntryKey)) (now : Nat)
      (file : PlaceFile) :
      s.tasks[id]? = some task -> task.status = Status.copying copies (move :: rest) now ->
      s.files.get move.1 = some file ->
      Step place s
        (s.setTask id task
          (Status.copying (copies ++ [(move.1, move.2, SabStore.copyOf file)]) rest now))
  | commit (id : Nat) (task : MutationTask) (target : Key) (input : PlaceFile)
      (removed : List Key) (env : Env) (changes : List Change) :
      s.tasks[id]? = some task -> task.status = Status.storing target input removed env.now ->
      SabStore.storeShared place target input env = Except.ok changes ->
      Step place s
        (s.committed id task env false (SabStore.unstaged place removed ++ changes)
          (Status.ended (some target) (Except.ok ())))
  | commitTree (id : Nat) (task : MutationTask) (copies : List SabStore.Copy) (now : Nat) :
      s.tasks[id]? = some task -> task.status = Status.copying copies [] now ->
      Step place s
        (s.committed id task (plainEnv now) true (SabStore.treeChanges copies)
          (Status.ended none (Except.ok ())))
  | fail (id : Nat) (task : MutationTask) (target : Key) (input : PlaceFile)
      (removed : List Key) (now : Nat) (refusal : Refusal) :
      s.tasks[id]? = some task -> task.status = Status.storing target input removed now ->
      Step place s
        (s.setTask id task (Status.ended (some target) (Except.error refusal)))
  | failTree (id : Nat) (task : MutationTask) (copies : List SabStore.Copy)
      (rest : List (EntryKey × EntryKey)) (now : Nat) (refusal : Refusal) :
      s.tasks[id]? = some task -> task.status = Status.copying copies rest now ->
      Step place s (s.setTask id task (Status.ended none (Except.error refusal)))
  | settle (id : Nat) (task : MutationTask) (creating : Option Key)
      (result : Except Refusal Unit) :
      s.tasks[id]? = some task -> task.status = Status.ended creating result ->
      Step place s (s.settle id task creating result)
  | release (id : Nat) (task : MutationTask) (result : Except Refusal Unit) :
      s.tasks[id]? = some task -> task.status = Status.settled result ->
      Step place s { s with locks := s.locks.release id task.queue.keys }

inductive Reachable (place : Place) (files : Files) : SabPlace -> Prop where
  | initial : Reachable place files (initial files)
  | step : Reachable place files s -> Step place s s' -> Reachable place files s'

end SabPlace

end SharedMemoryFs
