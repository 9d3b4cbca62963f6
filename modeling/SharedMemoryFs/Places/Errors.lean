import SharedMemoryFs.Cache.Entries

/-!
# Refusals

What a mutation throws: filesystem errors shaped like those of the platform, the
errors of a preparer and those of the publication pipeline.
-/

namespace SharedMemoryFs

inductive ErrorCode where
  | enoent
  | enotdir
  | eisdir
  | enotempty
  | eexist
  | eacces
  | erofs
  | enotsup
  | exdev
  | einval
deriving DecidableEq, Repr

def ErrorCode.name : ErrorCode -> String
  | ErrorCode.enoent => "ENOENT"
  | ErrorCode.enotdir => "ENOTDIR"
  | ErrorCode.eisdir => "EISDIR"
  | ErrorCode.enotempty => "ENOTEMPTY"
  | ErrorCode.eexist => "EEXIST"
  | ErrorCode.eacces => "EACCES"
  | ErrorCode.erofs => "EROFS"
  | ErrorCode.enotsup => "ENOTSUP"
  | ErrorCode.exdev => "EXDEV"
  | ErrorCode.einval => "EINVAL"

def ErrorCode.reason : ErrorCode -> String
  | ErrorCode.enoent => "no such file or directory"
  | ErrorCode.enotdir => "not a directory"
  | ErrorCode.eisdir => "illegal operation on a directory"
  | ErrorCode.enotempty => "directory not empty"
  | ErrorCode.eexist => "file already exists"
  | ErrorCode.eacces => "permission denied"
  | ErrorCode.erofs => "read-only file system"
  | ErrorCode.enotsup => "operation not supported"
  | ErrorCode.exdev => "cross-device link not permitted"
  | ErrorCode.einval => "invalid argument"

inductive Syscall where
  | openFile
  | unlink
  | mkdir
  | rm
  | rename
  | read
  | stat
  | lstat
  | access
  | scandir
  | opendir
  | rmdir
  | copyfile
  | cp
  | link
  | symlink
  | readlink
  | statfs
  | utime
  | lutime
  | chmod
  | chown
  | watch
deriving DecidableEq, Repr

def Syscall.name : Syscall -> String
  | Syscall.openFile => "open"
  | Syscall.unlink => "unlink"
  | Syscall.mkdir => "mkdir"
  | Syscall.rm => "rm"
  | Syscall.rename => "rename"
  | Syscall.read => "read"
  | Syscall.stat => "stat"
  | Syscall.lstat => "lstat"
  | Syscall.access => "access"
  | Syscall.scandir => "scandir"
  | Syscall.opendir => "opendir"
  | Syscall.rmdir => "rmdir"
  | Syscall.copyfile => "copyfile"
  | Syscall.cp => "cp"
  | Syscall.link => "link"
  | Syscall.symlink => "symlink"
  | Syscall.readlink => "readlink"
  | Syscall.statfs => "statfs"
  | Syscall.utime => "utime"
  | Syscall.lutime => "lutime"
  | Syscall.chmod => "chmod"
  | Syscall.chown => "chown"
  | Syscall.watch => "watch"

structure FsError where
  code : ErrorCode
  syscall : Syscall
  path : String
  detail : Option String := none
  dest : Option String := none
deriving DecidableEq, Repr

def FsError.message (error : FsError) : String :=
  error.code.name ++ ": " ++ error.code.reason ++
    (error.detail.elim "" (fun detail => " (" ++ detail ++ ")")) ++ ", " ++
    error.syscall.name ++ " '" ++ error.path ++ "'" ++
    error.dest.elim "" (fun dest => " -> '" ++ dest ++ "'")

/-- Why {lit}`prepareInput` rejects what a preparer returned. -/
inductive Rejection where
  | asynchronous
  | resultType
  | sourceType
  | notAnObject (field : String)
  | uncloneable (field : String)
  | reservedOption (name : String)
deriving DecidableEq, Repr

inductive Refusal where
  | fs (error : FsError)
  /-- {lit}`ERR_FS_EISDIR`. -/
  | isDirectory (syscall : Syscall) (path : String)
  /-- Whatever the preparer threw. -/
  | thrown
  | rejected (reason : Rejection)
  /-- Errors of the shared store, which have no code. -/
  | sourceDoesNotFit
  | scriptDoesNotFit
  | scriptDoesNotCompile
  | copyDoesNotFit (key : EntryKey)
  | copyMissing (key : EntryKey)
deriving DecidableEq, Repr

/-- The {lit}`code` an application sees. -/
def Refusal.code : Refusal -> Option String
  | Refusal.fs error => some error.code.name
  | Refusal.isDirectory _ _ => some "ERR_FS_EISDIR"
  | _ => none

end SharedMemoryFs
