import SharedMemoryFs.Foundation.FileTree
import SharedMemoryFs.Lifecycle.Epochs

/-!
# The disk under the places

What the kernel and its watcher see of the disk: a stat follows links, a scan of a
directory follows links up to it and none below it, but for links to files where the
sandbox is not strict.
-/

namespace SharedMemoryFs

open Foundation

/-- The absolute path of a key. -/
def HostedPlace.pathOf (hosted : HostedPlace) (key : Key) : PosixPath.Text :=
  (hosted.place.pathOf key).toList

/-- A place whose sources are files on disk. -/
def HostedPlace.fromDisk (hosted : HostedPlace) : Bool :=
  hosted.provider.indexed && decide (hosted.provider ≠ Provider.sea) && !hosted.virtual

namespace Lifecycle

structure DiskFile where
  data : Bytes
  mtimeMs : Nat
deriving DecidableEq, Repr

structure Disk where
  root : Node DiskFile
  proper : root.proper = true

def diskStat : Node DiskFile -> DiskStat
  | Node.file content =>
      { kind := DiskKind.file
        stat := { size := content.data.length, mtimeMs := content.mtimeMs } }
  | Node.directory _ => { kind := DiskKind.directory, stat := { size := 0, mtimeMs := 0 } }
  | Node.link _ => { kind := DiskKind.other, stat := { size := 0, mtimeMs := 0 } }
  | Node.special => { kind := DiskKind.other, stat := { size := 0, mtimeMs := 0 } }

namespace Disk

variable (d : Disk)

/-- How many links the system goes through before it gives up. -/
def maxLinks : Nat := 40

/-- Where a path leads, links followed. -/
def locate (path : PosixPath.Text) : Except Errno Loc :=
  d.root.walk maxLinks [] (PosixPath.split path)

def find (path : PosixPath.Text) : Except Errno (Node DiskFile) :=
  match d.locate path with
  | Except.error error => Except.error error
  | Except.ok loc =>
      match d.root.get loc with
      | some node => Except.ok node
      | none => Except.error Errno.enoent

def stat (path : PosixPath.Text) : Except Errno DiskStat := (d.find path).map diskStat

/-- The bytes of the file a path leads to. -/
def read (path : PosixPath.Text) : Option Bytes :=
  match d.find path with
  | Except.ok (Node.file content) => some content.data
  | _ => none

/-!
# Scans
-/

/-- {lit}`addFile`. -/
def addFile (hosted : HostedPlace) (key : Key) : Option (Key × FileInput) :=
  if hosted.scanExt.all (fun ext => ext.contains (hosted.place.fileExt key)) then
    match d.stat (hosted.pathOf key) with
    | Except.ok stats =>
        if stats.kind = DiskKind.file then some (key, diskFile hosted key stats.stat) else none
    | Except.error _ => none
  else none

/-- What {lit}`scanDir` does with an entry that is no directory. -/
def scanEntry (strict : Bool) (hosted : HostedPlace) (start : Key)
    (entry : Loc × Node DiskFile) : Option (Key × FileInput) :=
  let key := start ++ PosixPath.text entry.1
  match entry.2 with
  | Node.file _ => d.addFile hosted key
  | Node.link _ => if strict then none else d.addFile hosted key
  | _ => none

/-- {lit}`scan` from the directory of a key: {lit}`readdir` follows links up to it, and
{lit}`scanDir` goes down into directories only. -/
def scan (strict : Bool) (hosted : HostedPlace) (start : Key) : List (Key × FileInput) :=
  match d.find (hosted.pathOf start) with
  | Except.ok (Node.directory entries) =>
      (Node.directory entries).leaves.filterMap (d.scanEntry strict hosted start)
  | _ => []

end Disk

/-!
# Keys as names
-/

/-- The key is the text of names a directory can hold. -/
def OfNames (key : Key) : Prop :=
  exists names, (forall name, name ∈ names -> PosixPath.Plain name) ∧
    key = PosixPath.text names

theorem dirOf_ofNames {key : Key} (h : OfNames key) : PlaceFiles.dirOf key = key := by
  rcases h with ⟨names, hplain, heq⟩
  cases names with
  | nil =>
      rw [heq]
      rfl
  | cons name rest =>
      apply PlaceFiles.dirOf_plain
      rw [heq]
      exact ⟨⟨name ++ PosixPath.text rest, rfl⟩,
        PosixPath.getLast_text (List.cons_ne_nil name rest) hplain⟩

/-- The path of a key, but for a key that is a lone separator. -/
theorem pathOf_eq (hosted : HostedPlace) {key : Key} (h : key ≠ [slash]) :
    hosted.pathOf key = hosted.place.root.toList ++ key := by
  unfold HostedPlace.pathOf Place.pathOf
  by_cases hnil : key = []
  · rw [if_pos (Or.inl hnil), hnil, List.append_nil]
  · rw [if_neg (fun hor => hor.elim hnil h), String.toList_append, String.toList_ofList]

theorem ofNames_ne_slash {key : Key} (h : OfNames key) : key ≠ [slash] := by
  rcases h with ⟨names, hplain, heq⟩
  intro hslash
  cases names with
  | nil => cases heq.symm.trans hslash
  | cons name rest =>
      have htail : name ++ PosixPath.text rest = [] :=
        (List.cons.inj (heq.symm.trans hslash)).2
      exact (hplain name List.mem_cons_self).1 (List.append_eq_nil_iff.mp htail).1

theorem split_pathOf (hosted : HostedPlace) {names : List PosixPath.Text}
    (hplain : forall name, name ∈ names -> PosixPath.Plain name) :
    PosixPath.split (hosted.pathOf (PosixPath.text names)) =
      PosixPath.split hosted.place.root.toList ++ names := by
  rw [pathOf_eq hosted (ofNames_ne_slash ⟨names, hplain, rfl⟩)]
  cases names with
  | nil =>
      show PosixPath.split (_ ++ []) = _ ++ []
      rw [List.append_nil, List.append_nil]
  | cons name rest =>
      have hsplit := PosixPath.split_text
        (fun name hmem => (hplain name hmem).2.2.2)
      have htail : PosixPath.split (name ++ PosixPath.text rest) = name :: rest :=
        (List.cons.inj hsplit).2
      show PosixPath.split (_ ++ PosixPath.separator :: (name ++ PosixPath.text rest)) = _
      rw [PosixPath.split_append_separator, htail]

/-- The path of a key below another goes through the path of that one. -/
theorem split_pathOf_above (hosted : HostedPlace) {dir key : Key} (hdir : OfNames dir)
    (h : Above slash dir key) :
    exists rest, PosixPath.split (hosted.pathOf key) =
      PosixPath.split (hosted.pathOf dir) ++ rest := by
  rcases h with ⟨rest, heq⟩
  by_cases hslash : key = [slash]
  · have hnil : dir = [] := by
      have hlength := congrArg List.length (heq.symm.trans hslash)
      rw [List.length_append] at hlength
      apply List.length_eq_zero_iff.mp
      simp only [List.length_cons, List.length_nil] at hlength
      omega
    rw [hslash, hnil]
    exact ⟨[], (List.append_nil _).symm⟩
  · rw [pathOf_eq hosted hslash, pathOf_eq hosted (ofNames_ne_slash hdir), heq,
      ← List.append_assoc]
    exact ⟨PosixPath.split rest, PosixPath.split_append_separator _ rest⟩

namespace Disk

variable {d : Disk} {hosted : HostedPlace}

/-- Where a path leads, something is. -/
theorem locate_get {path : PosixPath.Text} {loc : Loc} (h : d.locate path = Except.ok loc) :
    exists node, d.root.get loc = some node :=
  Option.isSome_iff_exists.mp (Node.walk_get rfl h)

theorem find_of_locate {path : PosixPath.Text} {loc : Loc} {node : Node DiskFile}
    (h : d.locate path = Except.ok loc) (hget : d.root.get loc = some node) :
    d.find path = Except.ok node := by
  unfold find
  rw [h]
  dsimp only
  rw [hget]

theorem locate_of_find {path : PosixPath.Text} {node : Node DiskFile}
    (h : d.find path = Except.ok node) :
    exists loc, d.locate path = Except.ok loc ∧ d.root.get loc = some node := by
  unfold find at h
  cases hlocate : d.locate path with
  | error error =>
      rw [hlocate] at h
      cases h
  | ok loc =>
      rcases locate_get hlocate with ⟨found, hget⟩
      rw [hlocate] at h
      dsimp only at h
      rw [hget] at h
      cases h
      exact ⟨loc, rfl, hget⟩

/-- What lies below a path that leads nowhere cannot be found either. -/
theorem stat_above {dir key : Key} (hdir : OfNames dir) (h : Above slash dir key)
    {stats : DiskStat} (hstat : d.stat (hosted.pathOf key) = Except.ok stats) :
    exists stats, d.stat (hosted.pathOf dir) = Except.ok stats := by
  rcases split_pathOf_above hosted hdir h with ⟨rest, hsplit⟩
  unfold stat at hstat
  cases hfind : d.find (hosted.pathOf key) with
  | error error =>
      rw [hfind] at hstat
      cases hstat
  | ok node =>
      rcases locate_of_find hfind with ⟨loc, hlocate, _⟩
      unfold locate at hlocate
      rw [hsplit] at hlocate
      rcases Node.walk_prefix hlocate with ⟨mid, _, _, hmid, _⟩
      have hdirLocate : d.locate (hosted.pathOf dir) = Except.ok mid := hmid
      rcases locate_get hdirLocate with ⟨found, hget⟩
      refine ⟨diskStat found, ?_⟩
      unfold stat
      rw [find_of_locate hmid hget]
      rfl

/-!
# What the scanner admits
-/

/-- No link leads from the place root to the key, and strict sandboxes want a file at
its end. -/
def Admits (d : Disk) (strict : Bool) (hosted : HostedPlace) (key : Key) : Prop :=
  exists base names node, d.locate hosted.place.root.toList = Except.ok base ∧
    (forall name, name ∈ names -> PosixPath.Plain name) ∧ key = PosixPath.text names ∧
      d.root.get (base ++ names) = some node ∧ (strict = true -> node.isFile = true)

/-- Real directories below the root lead where their names say. -/
theorem locate_real {base : Loc} {names : List PosixPath.Text} {node : Node DiskFile}
    (hbase : d.locate hosted.place.root.toList = Except.ok base)
    (hplain : forall name, name ∈ names -> PosixPath.Plain name)
    (hget : d.root.get (base ++ names) = some node) (hlink : node.isLink = false) :
    d.locate (hosted.pathOf (PosixPath.text names)) = Except.ok (base ++ names) := by
  unfold locate at hbase ⊢
  rw [split_pathOf hosted hplain]
  rcases d.root.walk_append maxLinks [] (PosixPath.split hosted.place.root.toList) names with
    ⟨dest, left, _, hwalk, hextended⟩ | ⟨error, hwalk, _⟩
  · cases hwalk.symm.trans hbase
    rw [hextended]
    exact Node.walk_real left hplain hget hlink
  · cases hwalk.symm.trans hbase

/-- Whatever is read under an admitted key of a strict sandbox is the file there. -/
theorem Admits.find_file (h : d.Admits true hosted key) :
    exists base names content, d.locate hosted.place.root.toList = Except.ok base ∧
      key = PosixPath.text names ∧ d.root.get (base ++ names) = some (Node.file content) ∧
        d.locate (hosted.pathOf key) = Except.ok (base ++ names) := by
  rcases h with ⟨base, names, node, hbase, hplain, heq, hget, hfile⟩
  cases node with
  | file content =>
      refine ⟨base, names, content, hbase, heq, hget, ?_⟩
      rw [heq]
      exact locate_real hbase hplain hget rfl
  | directory entries => cases hfile rfl
  | link target => cases hfile rfl
  | special => cases hfile rfl

theorem addFile_stat {found : Key × FileInput} (h : d.addFile hosted key = some found) :
    found.1 = key ∧ exists stats, d.stat (hosted.pathOf key) = Except.ok stats ∧
      stats.kind = DiskKind.file ∧ found.2 = diskFile hosted key stats.stat := by
  unfold addFile at h
  split_ifs at h
  cases hstat : d.stat (hosted.pathOf key) with
  | error error =>
      rw [hstat] at h
      cases h
  | ok stats =>
      rw [hstat] at h
      dsimp only at h
      split_ifs at h with hkind
      cases h
      exact ⟨rfl, stats, rfl, hkind, rfl⟩

theorem scanEntry_addFile {strict : Bool} {start : Key} {entry : Loc × Node DiskFile}
    {found : Key × FileInput} (h : d.scanEntry strict hosted start entry = some found) :
    d.addFile hosted (start ++ PosixPath.text entry.1) = some found ∧
      (strict = true -> entry.2.isFile = true) := by
  rcases entry with ⟨names, node⟩
  unfold scanEntry at h
  cases node with
  | file content => exact ⟨h, fun _ => rfl⟩
  | link target =>
      cases strict with
      | false => exact ⟨h, fun htrue => by cases htrue⟩
      | true => cases h
  | directory entries => cases h
  | special => cases h

/-- What a scan finds, it finds as an entry of the directory it starts from. -/
theorem mem_scan {strict : Bool} {start : Key} {found : Key × FileInput}
    (h : found ∈ d.scan strict hosted start) :
    exists entries entry, d.find (hosted.pathOf start) = Except.ok (Node.directory entries) ∧
      entry ∈ (Node.directory entries).leaves ∧
        d.scanEntry strict hosted start entry = some found := by
  unfold scan at h
  cases hfind : d.find (hosted.pathOf start) with
  | error error =>
      rw [hfind] at h
      cases h
  | ok node =>
      rw [hfind] at h
      cases node with
      | directory entries =>
          rcases List.mem_filterMap.mp h with ⟨entry, hmem, heq⟩
          exact ⟨entries, entry, rfl, hmem, heq⟩
      | file content => cases h
      | link target => cases h
      | special => cases h

theorem scan_stat {strict : Bool} {start : Key} {found : Key × FileInput}
    (h : found ∈ d.scan strict hosted start) :
    exists stats, d.stat (hosted.pathOf found.1) = Except.ok stats ∧
      stats.kind = DiskKind.file := by
  rcases mem_scan h with ⟨entries, entry, _, _, hentry⟩
  rcases addFile_stat (scanEntry_addFile hentry).1 with ⟨hkey, stats, hstat, hkind, _⟩
  rw [hkey]
  exact ⟨stats, hstat, hkind⟩

/-- The directory of a key is a real one, reached through real ones. -/
def RealDirectory (d : Disk) (hosted : HostedPlace) (start : Key) : Prop :=
  exists base names entries, d.locate hosted.place.root.toList = Except.ok base ∧
    (forall name, name ∈ names -> PosixPath.Plain name) ∧ start = PosixPath.text names ∧
      d.root.get (base ++ names) = some (Node.directory entries)

/-- A scan from a real directory finds only what it should. -/
theorem scan_admits {strict : Bool} {start : Key} (hstart : d.RealDirectory hosted start)
    {found : Key × FileInput} (h : found ∈ d.scan strict hosted start) :
    d.Admits strict hosted found.1 := by
  rcases hstart with ⟨base, names, entries, hbase, hplain, heq, hget⟩
  rcases mem_scan h with ⟨entries', entry, hfind, hmem, hentry⟩
  have hlocate := locate_real hbase hplain hget rfl
  rw [heq, find_of_locate hlocate hget] at hfind
  cases hfind
  rcases Node.proper_get d.proper hget with ⟨hproper, _⟩
  rcases (Node.mem_leaves hproper entry.1 entry.2).mp hmem with ⟨hleaf, _⟩
  rcases Node.proper_get hproper hleaf with ⟨_, hrest⟩
  rcases scanEntry_addFile hentry with ⟨hadd, hfile⟩
  refine ⟨base, names ++ entry.1, entry.2, hbase, ?_, ?_, ?_, hfile⟩
  · intro name hname
    rcases List.mem_append.mp hname with hfirst | hlast
    · exact hplain name hfirst
    · exact hrest name hlast
  · rw [(addFile_stat hadd).1, heq, PosixPath.text_append]
  · rw [← List.append_assoc, Node.get_append, hget]
    exact hleaf

/-- The scan of a whole place starts at its root, wherever that leads. -/
theorem scan_root_admits {strict : Bool} {found : Key × FileInput}
    (h : found ∈ d.scan strict hosted []) : d.Admits strict hosted found.1 := by
  rcases mem_scan h with ⟨entries, entry, hfind, _, _⟩
  rcases locate_of_find hfind with ⟨base, hlocate, hget⟩
  rw [pathOf_eq hosted (by decide), List.append_nil] at hlocate
  apply scan_admits _ h
  refine ⟨base, [], entries, hlocate, ?_, rfl, ?_⟩
  · intro name hmem
    cases hmem
  · rw [List.append_nil]
    exact hget

end Disk

end Lifecycle
end SharedMemoryFs
