import SharedMemoryFs.Routing.PlaceFs

/-!
# The patch of node:fs

Every patched operation routes its path arguments and either answers from the
place, throws, or hands its arguments to the original function.  What matters here
is which of the three it does: {lit}`native` is the original {lit}`node:fs`.
-/

namespace SharedMemoryFs

open Foundation

/-- A path as {lit}`node:fs` takes it.  {lit}`bytes` is a {lit}`Uint8Array` that is
no {lit}`Buffer`. -/
inductive PathArg where
  | string (path : FilePath)
  | url (path : FilePath)
  | buffer (path : FilePath)
  | bytes (path : FilePath)
deriving DecidableEq, Repr

/-- The path an argument denotes to the platform. -/
def PathArg.denotes : PathArg -> FilePath
  | PathArg.string path => path
  | PathArg.url path => path
  | PathArg.buffer path => path
  | PathArg.bytes path => path

/-- The path the patch sees. -/
def pathOf : PathArg -> Option FilePath
  | PathArg.string path => some path
  | PathArg.url path => some path
  | PathArg.buffer path => some path
  | PathArg.bytes _ => none

/-- A path or a file descriptor. -/
inductive FileArg where
  | path (p : PathArg)
  | descriptor (fd : Nat)
deriving DecidableEq, Repr

structure PatchError where
  code : ErrorCode
  syscall : Syscall
  path : Option FilePath
  detail : Option String := none
  dest : Option FilePath := none
deriving DecidableEq, Repr

/-- An operation refuses by its routing, or the store of a place refuses it. -/
inductive Refused where
  | patch (error : PatchError)
  | store (refusal : Refusal)

/-- What an operation that refuses nothing does. -/
inductive CoreAnswer where
  /-- {lit}`PASS`: the original function runs with the same arguments. -/
  | native
  | facade (place : PlaceName) (key : Key)
  | root
  | copied (source target : Route)
  | done
  | answered (value : Bool)

abbrev Core := Except Refused CoreAnswer

/-- The kernel behind the patch, and the disk behind it.  {lit}`renames` is what the
store of a virtual place answers to a rename. -/
structure FsPatch where
  router : FsRouter
  disk : DiskView
  diskDirectory : FilePath -> Bool
  renames : RoutedPlace -> Key -> Key -> Except Refusal Unit

namespace FsPatch

variable (patch : FsPatch)

def refuse (code : ErrorCode) (syscall : Syscall) (path : FilePath)
    (detail : Option String := none) : Core :=
  Except.error (Refused.patch { code := code, syscall := syscall, path := some path, detail := detail })

/-!
# Routing one argument
-/

/-- {lit}`readRoute`, and what to do with a route that is not the original's. -/
def readRoute (p : PathArg) (syscall : Syscall) (listing : Bool) (native : Core)
    (serve : FilePath -> Route -> Core) : Core :=
  match pathOf p with
  | none => native
  | some filePath =>
      match patch.router.read filePath with
      | Route.passthrough => native
      | Route.disk place key => if listing then serve filePath (Route.disk place key) else native
      | Route.deny code => refuse code syscall filePath
      | route => serve filePath route

/-- The store answers later than a synchronous call can wait. -/
def needsAsync (place : RoutedPlace) (key : Key) : Bool := key ≠ [] ∧ !place.sync

/-- {lit}`mutationRoute`, and what the place's store does. -/
def mutationRoute (p : PathArg) (syscall : Syscall) (sync : Bool) (native : Core)
    (serve : FilePath -> RoutedPlace -> Key -> Core) : Core :=
  match pathOf p with
  | none => native
  | some filePath =>
      match patch.router.mutate filePath with
      | Route.passthrough => native
      | Route.deny code => refuse code syscall filePath
      | Route.store place key =>
          if sync ∧ needsAsync place key = true then
            refuse ErrorCode.enotsup syscall filePath (some "asynchronous place")
          else serve filePath place key
      | _ => native

def guardMutation (p : PathArg) (syscall : Syscall) (native : Core) : Core :=
  patch.mutationRoute p syscall false native
    (fun filePath _ _ => refuse ErrorCode.enotsup syscall filePath (some "virtual place"))

def walkGuard (p : PathArg) (syscall : Syscall) (walks : Bool) (native : Core) : Core :=
  match pathOf p with
  | none => native
  | some filePath =>
      if walks ∧ patch.router.registry.encloses filePath = true then
        refuse ErrorCode.enotsup syscall filePath (some "walks into places")
      else native

/-- The place a route belongs to answers. -/
def serveRoute : Route -> Core
  | Route.file place key => Except.ok (CoreAnswer.facade place.config.name key)
  | Route.dir place key => Except.ok (CoreAnswer.facade place.config.name key)
  | Route.disk place key => Except.ok (CoreAnswer.facade place.config.name key)
  | Route.root => Except.ok CoreAnswer.root
  | _ => Except.ok CoreAnswer.done

def serveStore (place : RoutedPlace) (key : Key) : Core :=
  Except.ok (CoreAnswer.facade place.config.name key)

def native : Core := Except.ok CoreAnswer.native

/-!
# Operations
-/

/-- The parts of an access mode the patch looks at. -/
structure AccessMode where
  write : Bool
  execute : Bool
deriving DecidableEq, Repr

def readFile (p : PathArg) : Core :=
  patch.readRoute p Syscall.openFile false native (fun _ route =>
    match route with
    | Route.file place key => Except.ok (CoreAnswer.facade place.config.name key)
    | _ => Except.error (Refused.patch
        { code := ErrorCode.eisdir, syscall := Syscall.read, path := none }))

def statOf (p : PathArg) (syscall : Syscall) : Core :=
  patch.readRoute p syscall false native (fun _ route => serveRoute route)

def writable : Route -> Bool
  | Route.file place _ => place.writable
  | Route.dir place _ => place.writable
  | _ => false

def access (p : PathArg) (mode : AccessMode) : Core :=
  patch.readRoute p Syscall.access false native (fun filePath route =>
    if mode.execute then refuse ErrorCode.eacces Syscall.access filePath
    else if mode.write ∧ writable route = false then
      refuse ErrorCode.eacces Syscall.access filePath
    else Except.ok CoreAnswer.done)

def realpath (p : PathArg) : Core :=
  patch.readRoute p Syscall.lstat false native (fun _ _ => Except.ok CoreAnswer.done)

def readdir (p : PathArg) (recursive : Bool) : Core :=
  patch.readRoute p Syscall.scandir true (patch.walkGuard p Syscall.scandir recursive native)
    (fun filePath route =>
      match route with
      | Route.file _ _ => refuse ErrorCode.enotdir Syscall.scandir filePath
      | route => serveRoute route)

def opendir (p : PathArg) (recursive : Bool) : Core :=
  patch.readRoute p Syscall.opendir true (patch.walkGuard p Syscall.opendir recursive native)
    (fun _ route => serveRoute route)

def openFile (p : PathArg) : Core :=
  patch.readRoute p Syscall.openFile false native (fun filePath _ =>
    refuse ErrorCode.enotsup Syscall.openFile filePath (some "virtual file"))

/-- {lit}`writeFile`, {lit}`appendFile`, {lit}`unlink` and {lit}`mkdir`. -/
def mutation (p : PathArg) (syscall : Syscall) (sync : Bool) : Core :=
  patch.mutationRoute p syscall sync native (fun _ place key => serveStore place key)

def rm (p : PathArg) (recursive sync : Bool) : Core :=
  patch.mutationRoute p Syscall.rm sync (patch.walkGuard p Syscall.rm recursive native)
    (fun _ place key => serveStore place key)

def rmdir (p : PathArg) (recursive : Bool) : Core :=
  patch.guardMutation p Syscall.rmdir (patch.walkGuard p Syscall.rmdir recursive native)

/-- {lit}`copyOf`, up to the bytes. -/
def copyOf (src dest : PathArg) (syscall : Syscall) (recursive : Bool) : Core :=
  match pathOf src, pathOf dest with
  | some source, some target =>
      let fail := fun (code : ErrorCode) (detail : Option String) =>
        (Except.error (Refused.patch
          { code := code
            syscall := syscall
            path := some source
            detail := detail
            dest := some target }) : Core)
      match patch.router.copy source recursive with
      | Route.deny code => fail code none
      | Route.unsupported => fail ErrorCode.enotsup (some "managed source")
      | from_ =>
          match patch.router.mutate target with
          | Route.deny code => fail code none
          | into =>
              if recursive then
                match patch.router.copy target true with
                | Route.passthrough => native
                | _ => fail ErrorCode.enotsup (some "managed destination")
              else
                match from_, into with
                | Route.passthrough, Route.passthrough => native
                | _, _ => Except.ok (CoreAnswer.copied from_ into)
  | _, _ => native

def link (src dest : PathArg) : Core :=
  match pathOf src, pathOf dest with
  | some source, some target =>
      let fail := fun (code : ErrorCode) (detail : Option String) =>
        (Except.error (Refused.patch
          { code := code
            syscall := Syscall.link
            path := some source
            detail := detail
            dest := some target }) : Core)
      match patch.router.link source target with
      | Route.passthrough => native
      | Route.deny code => fail code none
      | _ => fail ErrorCode.enotsup (some "managed territory")
  | _, _ => native

/-- A rename within the place: its store answers. -/
def renameStored (place : RoutedPlace) (source target : Key) : Core :=
  match patch.renames place source target with
  | Except.ok () => Except.ok (CoreAnswer.facade place.config.name source)
  | Except.error refusal => Except.error (Refused.store refusal)

/-- Both paths of a rename passed the mutation routing. -/
def renameNative (source target : FilePath) (fail : ErrorCode -> Option String -> Core) : Core :=
  match patch.router.rename source target with
  | Route.deny code => fail code none
  | Route.unsupported => fail ErrorCode.enotsup (some "moves places")
  | Route.crossing =>
      if patch.diskDirectory source then
        fail ErrorCode.enotsup (some "a directory enters or leaves a place")
      else native
  | _ => native

/-- The key of a route that is the store's of a place that cannot answer at once. -/
def asynchronous (sync : Bool) : Route -> Bool
  | Route.store place key => sync && needsAsync place key
  | _ => false

def rename (src dest : PathArg) (sync : Bool) : Core :=
  match pathOf src, pathOf dest with
  | some source, some target =>
      let fail := fun (code : ErrorCode) (detail : Option String) =>
        (Except.error (Refused.patch
          { code := code
            syscall := Syscall.rename
            path := some source
            detail := detail
            dest := some target }) : Core)
      match patch.router.mutate source with
      | Route.deny code => fail code none
      | from_ =>
          if asynchronous sync from_ then fail ErrorCode.enotsup (some "asynchronous place")
          else
            match patch.router.mutate target with
            | Route.deny code => fail code none
            | into =>
                if asynchronous sync into then fail ErrorCode.enotsup (some "asynchronous place")
                else
                  match from_, into with
                  | Route.passthrough, Route.passthrough =>
                      patch.renameNative source target fail
                  | Route.store place key, Route.store place' key' =>
                      if key = [] ∨ key' = [] then fail ErrorCode.enotsup (some "place root")
                      else if place.config.name = place'.config.name then
                        patch.renameStored place key key'
                      else fail ErrorCode.exdev none
                  | Route.store _ key, _ =>
                      if key = [] then fail ErrorCode.enotsup (some "place root")
                      else fail ErrorCode.exdev none
                  | _, Route.store _ key' =>
                      if key' = [] then fail ErrorCode.enotsup (some "place root")
                      else fail ErrorCode.exdev none
                  | _, _ => native
  | _, _ => native

/-- A path argument that {lit}`guardOp` reads. -/
def guardRead (p : PathArg) (syscall : Syscall) (native : Core) : Core :=
  patch.readRoute p syscall false native (fun filePath route =>
    match route with
    | Route.root => refuse ErrorCode.eacces syscall filePath
    | _ => native)

def watch (p : PathArg) (recursive : Bool) : Core :=
  patch.readRoute p Syscall.watch true (patch.walkGuard p Syscall.watch recursive native)
    (fun filePath route =>
      let managed := refuse ErrorCode.enotsup Syscall.watch filePath (some "managed territory")
      match route with
      | Route.disk place key =>
          let facade : PlaceFs :=
            { place := place
              appRoot := patch.router.registry.appRoot
              fileExt := patch.router.fileExt
              disk := patch.disk }
          if !recursive ∧ facade.stat key ≠ some NodeKind.directory then native else managed
      | _ => managed)

def existsSync (p : PathArg) : Core :=
  match pathOf p with
  | none => native
  | some filePath =>
      match patch.router.read filePath with
      | Route.passthrough => native
      | Route.disk _ _ => native
      | Route.deny _ => Except.ok (CoreAnswer.answered false)
      | _ => Except.ok (CoreAnswer.answered true)

/-- A refusal surfaces as an error of the stream. -/
def createReadStream (p : PathArg) : Core := patch.readFile p

end FsPatch

/-!
# Calls
-/

/-- The single paths {lit}`GUARDS` routes as mutations. -/
inductive GuardedMutation where
  | truncate
  | utimes
  | lutimes
  | chmod
  | lchmod
  | chown
  | lchown
deriving DecidableEq, Repr

def GuardedMutation.syscall : GuardedMutation -> Syscall
  | GuardedMutation.truncate => Syscall.openFile
  | GuardedMutation.utimes => Syscall.utime
  | GuardedMutation.lutimes => Syscall.lutime
  | GuardedMutation.chmod => Syscall.chmod
  | GuardedMutation.lchmod => Syscall.chmod
  | GuardedMutation.chown => Syscall.chown
  | GuardedMutation.lchown => Syscall.chown

/-- A call of an operation in {lit}`TABLE` or {lit}`GUARDS`.  {lit}`writes` says that
the flags write, create or truncate. -/
inductive Call where
  | readFile (p : FileArg) (writes : Bool)
  | stat (p : PathArg)
  | lstat (p : PathArg)
  | access (p : PathArg) (mode : FsPatch.AccessMode)
  | realpath (p : PathArg)
  | readdir (p : PathArg) (recursive : Bool)
  | opendir (p : PathArg) (recursive : Bool)
  | openFile (p : PathArg) (writes : Bool)
  | writeFile (p : FileArg)
  | appendFile (p : FileArg)
  | unlink (p : PathArg)
  | mkdir (p : PathArg)
  | rm (p : PathArg) (recursive : Bool)
  | rename (src dest : PathArg)
  | copyFile (src dest : PathArg)
  | cp (src dest : PathArg) (recursive : Bool)
  | rmdir (p : PathArg) (recursive : Bool)
  | link (src dest : PathArg)
  | readlink (p : PathArg)
  | statfs (p : PathArg)
  | guarded (op : GuardedMutation) (p : FileArg)
  | symlink (target path : PathArg)

/-- A call of one of the functions patched apart. -/
inductive Probe where
  | existsSync (p : PathArg)
  | createReadStream (p : PathArg)
  | watch (p : PathArg) (recursive : Bool)
  | watchFile (p : PathArg)

namespace FsPatch

variable (patch : FsPatch)

/-- A descriptor is no path and goes to the original function. -/
def onPath (p : FileArg) (core : PathArg -> Core) : Core :=
  match p with
  | FileArg.path p => core p
  | FileArg.descriptor _ => native

/-- The operation core of a call; {lit}`sync` is the form it was called in. -/
def core (sync : Bool) : Call -> Core
  | Call.readFile p _ => onPath p patch.readFile
  | Call.stat p => patch.statOf p Syscall.stat
  | Call.lstat p => patch.statOf p Syscall.lstat
  | Call.access p mode => patch.access p mode
  | Call.realpath p => patch.realpath p
  | Call.readdir p recursive => patch.readdir p recursive
  | Call.opendir p recursive => patch.opendir p recursive
  | Call.openFile p _ => patch.openFile p
  | Call.writeFile p => onPath p (fun p => patch.mutation p Syscall.openFile sync)
  | Call.appendFile p => onPath p (fun p => patch.mutation p Syscall.openFile sync)
  | Call.unlink p => patch.mutation p Syscall.unlink sync
  | Call.mkdir p => patch.mutation p Syscall.mkdir sync
  | Call.rm p recursive => patch.rm p recursive sync
  | Call.rename src dest => patch.rename src dest sync
  | Call.copyFile src dest => patch.copyOf src dest Syscall.copyfile false
  | Call.cp src dest recursive => patch.copyOf src dest Syscall.cp recursive
  | Call.rmdir p recursive => patch.rmdir p recursive
  | Call.link src dest => patch.link src dest
  | Call.readlink p => patch.guardRead p Syscall.readlink native
  | Call.statfs p => patch.guardRead p Syscall.statfs native
  | Call.guarded op p => onPath p (fun p => patch.guardMutation p op.syscall native)
  | Call.symlink target path =>
      patch.guardRead target Syscall.symlink (patch.guardMutation path Syscall.symlink native)

def probe : Probe -> Core
  | Probe.existsSync p => patch.existsSync p
  | Probe.createReadStream p => patch.createReadStream p
  | Probe.watch p recursive => patch.watch p recursive
  | Probe.watchFile p => patch.guardRead p Syscall.watch native

end FsPatch

end SharedMemoryFs
