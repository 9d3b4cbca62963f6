import SharedMemoryFs.Places.Pipeline

/-!
# Mutations of a map place

The store of a place whose entries are owned buffers of one thread.  A mutation
runs to its end at once.  Its input may be the very buffer an entry holds, so
what a preparer writes into it stays written whatever the preparer answers.
-/

namespace SharedMemoryFs

open Foundation

/-- A mutation of a virtual place; every key is canonical.  {lit}`directory`
says that a key was named with a trailing separator. -/
inductive Mutation where
  | write (key : Key) (data : Bytes) (exclusive : Bool)
  | append (key : Key) (data : Bytes)
  | unlink (key : Key) (directory : Bool)
  | mkdir (key : Key) (recursive : Bool)
  | rm (key : Key) (directory force recursive : Bool)
  | rename (source target : Key) (directory : Bool)
deriving DecidableEq, Repr

/-- The keys a mutation names. -/
def Mutation.keys : Mutation -> List Key
  | Mutation.write key _ _ => [key]
  | Mutation.append key _ => [key]
  | Mutation.unlink key _ => [key]
  | Mutation.mkdir key _ => [key]
  | Mutation.rm key _ _ _ => [key]
  | Mutation.rename source target _ => [source, target]

def Mutation.Canonical (op : Mutation) : Prop :=
  forall key, key ∈ op.keys -> PlaceFiles.canonicalKey key = some key

instance (op : Mutation) : Decidable op.Canonical :=
  inferInstanceAs (Decidable (forall key, key ∈ op.keys -> _))

namespace MapStore

variable (place : Place) (files : Files)

/-- {lit}`#input`: the preparer of the key's extension runs once, here. -/
def input (key : Key) (raw : Bytes) (syscall : Syscall) (mtimeMs : Nat) :
    Bytes × Except Refusal PlaceFile :=
  let stat : Stat := { size := raw.length, mtimeMs := mtimeMs }
  match place.prepared key with
  | none => (raw, Except.ok { data := raw, stat := stat })
  | some name =>
      match place.preparerOf key with
      | none =>
          (raw, Except.error (place.failOn syscall key ErrorCode.enotsup
            (some ("preparer \"" ++ name ++ "\" is not registered in this thread " ++
              "(attach(\x7b preparers \x7d))"))))
      | some preparer => place.prepareInput key stat raw preparer

/-- The compiled flavors; a script that does not compile refuses them all. -/
def codesOf (key : Key) : List Place.Code -> Except Refusal (List (EntryKey × Bytes))
  | [] => Except.ok []
  | code :: rest =>
      match code.data with
      | some data => do
          let codes ← codesOf key rest
          Except.ok ((code.key, data) :: codes)
      | none =>
          if code.domain = BytecodeDomain.script then
            Except.error (place.failOn Syscall.openFile key ErrorCode.enotsup
              (some "source does not compile"))
          else codesOf key rest

def dropCompanions (key : Key) : Files :=
  (place.companions key).foldl PlaceFiles.delete files

def codeFile (mtimeMs : Nat) (data : Bytes) : PlaceFile :=
  { data := data, stat := { size := data.length, mtimeMs := mtimeMs } }

/-- Publish a canonical input with fresh companions, once all is computed. -/
def publish (key : Key) (input : PlaceFile) : Except Refusal Files := do
  let codes ← codesOf place key (place.bytecodeFor key input.data input.scriptOptions)
  let published := dropCompanions place (files.set (EntryKey.ofSource key) input) key
  Except.ok (codes.foldl
    (fun files code => files.set code.1 (codeFile input.stat.mtimeMs code.2)) published)

/-- {lit}`remove`, when there is a source. -/
def remove (key : Key) : Files :=
  dropCompanions place (files.delete (EntryKey.ofSource key)) key

/-- Prepare and publish raw bytes no entry holds. -/
def publishRaw (key : Key) (raw : Bytes) (now : Nat) : Files × Except Refusal Unit :=
  match (input place key raw Syscall.openFile now).2 with
  | Except.error refusal => (files, Except.error refusal)
  | Except.ok input =>
      match publish place files key input with
      | Except.error refusal => (files, Except.error refusal)
      | Except.ok published => (published, Except.ok ())

def write (key : Key) (data : Bytes) (exclusive : Bool) (now : Nat) :
    Files × Except Refusal Unit :=
  let fail := place.failOn Syscall.openFile key
  match if exclusive then Place.checkExclusive files key fail else Except.ok () with
  | Except.error refusal => (files, Except.error refusal)
  | Except.ok () =>
      match Place.checkHierarchy files key fail [] with
      | Except.error refusal => (files, Except.error refusal)
      | Except.ok () => publishRaw place files key data now

def append (key : Key) (data : Bytes) (now : Nat) : Files × Except Refusal Unit :=
  let fail := place.failOn Syscall.openFile key
  if (place.prepared key).isSome then
    (files, Except.error (fail ErrorCode.enotsup (some "prepared source")))
  else
    match Place.checkHierarchy files key fail [] with
    | Except.error refusal => (files, Except.error refusal)
    | Except.ok () =>
        let joined := match files.get (EntryKey.ofSource key) with
          | some current => current.data ++ data
          | none => data
        publishRaw place files key joined now

def unlink (key : Key) (directory : Bool) : Files × Except Refusal Unit :=
  if !directory ∧ files.hasSource key then (remove place files key, Except.ok ())
  else
    let code :=
      if files.isDirectory key then ErrorCode.eisdir else Place.absentCode files key
    (files, Except.error (place.failOn Syscall.unlink key code none))

def mkdir (key : Key) (recursive : Bool) : Files × Except Refusal Unit :=
  (files, Place.checkMkdir files key recursive (place.failOn Syscall.mkdir key) [])

def rm (key : Key) (directory force recursive : Bool) : Files × Except Refusal Unit :=
  if !directory ∧ files.hasSource key then (remove place files key, Except.ok ())
  else
    let children := files.keysUnder key
    if children = [] then
      if force then (files, Except.ok ())
      else (files, Except.error (place.failOn Syscall.rm key (Place.absentCode files key) none))
    else if !recursive then
      (files, Except.error (Refusal.isDirectory Syscall.rm (place.pathOf key)))
    else (children.foldl (remove place) files, Except.ok ())

/-- {lit}`#moveTree`: the same entries under the new keys, in one step. -/
def moveTree (source target : Key) : Files × Except Refusal Unit :=
  match place.subtreeMoves files source target [] with
  | Except.error refusal => (files, Except.error refusal)
  | Except.ok moves =>
      let entries := moves.filterMap (fun move =>
        (files.get move.1).map (fun entry => (move.2, entry)))
      let removed := moves.foldl (fun files move => files.delete move.1) files
      (entries.foldl (fun files entry => files.set entry.1 entry.2) removed, Except.ok ())

/-- The published buffer of a source holds {lit}`raw`. -/
def overwrite (key : Key) (current : PlaceFile) (raw : Bytes) : Files :=
  files.set (EntryKey.ofSource key) { current with data := raw }

def renameFile (source target : Key) (current : PlaceFile) : Files × Except Refusal Unit :=
  match Place.checkHierarchy files target (place.failRename source target) [] with
  | Except.error refusal => (files, Except.error refusal)
  | Except.ok () =>
      -- the preparer is handed the buffer the source entry holds
      let prepared := input place target current.data Syscall.rename current.stat.mtimeMs
      let written := overwrite files source current prepared.1
      match prepared.2 with
      | Except.error refusal => (written, Except.error refusal)
      | Except.ok input =>
          match publish place written target input with
          | Except.error refusal => (written, Except.error refusal)
          | Except.ok published => (remove place published source, Except.ok ())

def rename (source target : Key) (directory : Bool) : Files × Except Refusal Unit :=
  let fail := place.failRename source target
  match files.get (EntryKey.ofSource source) with
  | none =>
      if files.isDirectory source then moveTree place files source target
      else if (place.prepared source).isSome then
        (files, Except.error (fail ErrorCode.enotsup (some "prepared source")))
      else (files, Except.error (fail ErrorCode.enoent none))
  | some current =>
      if directory then (files, Except.error (fail ErrorCode.enotdir none))
      else if (place.prepared source).isSome then
        (files, Except.error (fail ErrorCode.enotsup (some "prepared source")))
      else if source = target then (files, Except.ok ())
      else renameFile place files source target current

/-- One mutation at the clock reading {lit}`now`. -/
def run (now : Nat) : Mutation -> Files × Except Refusal Unit
  | Mutation.write key data exclusive => write place files key data exclusive now
  | Mutation.append key data => append place files key data now
  | Mutation.unlink key directory => unlink place files key directory
  | Mutation.mkdir key recursive => mkdir place files key recursive
  | Mutation.rm key directory force recursive => rm place files key directory force recursive
  | Mutation.rename source target directory => rename place files source target directory

end MapStore

end SharedMemoryFs
