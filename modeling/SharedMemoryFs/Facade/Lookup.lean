import SharedMemoryFs.Foundation.PathText
import SharedMemoryFs.Places.FileExt
import SharedMemoryFs.Routing.PlaceFs

/-!
# Lookups of the facade as text

The facade takes any text for a key.  The extension filter reads the key as it is given,
while the path it opens is the joined and normalized one; {lit}`confined_iff` says for
which keys the two agree.
-/

namespace SharedMemoryFs

open Foundation

/-- What {lit}`#file` finds: a published version, or a file of the disk territory. -/
inductive Found where
  | published (version : Version)
  | disk (path : FilePath)
deriving DecidableEq

/-- Where the bytes of an answer come from. -/
inductive Source where
  | memory (data : Bytes)
  | opens (path : FilePath)
deriving DecidableEq

/-- A place as its facade reads it.  The configuration gives extensions that are not
empty, and a list of them to every place that falls back to disk; the directory of the
place is no file, and its path holds no NUL. -/
structure Facade where
  place : RoutedPlace
  appRoot : List PosixPath.Text
  disk : DiskView
  plain : forall name, name ∈ appRoot ++ [place.config.name.toList] -> PosixPath.Plain name
  exts : forall list, place.scanExt = some list -> "" ∉ list
  finite : place.fallback = some Fallback.disk -> place.scanExt ≠ none
  rooted : place.files.Rooted
  directory : disk (appRoot ++ [place.config.name.toList]) ≠ some NodeKind.file
  clean : sep ∉ PosixPath.text (appRoot ++ [place.config.name.toList])

namespace Facade

variable (facade : Facade)

def rootNames : List PosixPath.Text := facade.appRoot ++ [facade.place.config.name.toList]

/-- {lit}`Place.root`. -/
def root : FilePath := PosixPath.text facade.rootNames

def fallsBack : Bool := facade.place.fallback == some Fallback.disk

/-- {lit}`Place.entry`; companions are never returned. -/
def entry (key : Key) : Option Version :=
  if sep ∈ key then none
  else
    match facade.place.files.get (EntryKey.ofSource key) with
    | some version => some version
    | none =>
        if key.head? = some slash then none
        else facade.place.files.get (EntryKey.ofSource (slash :: key))

/-- {lit}`Place.keyOf`. -/
def keyOf (key : Key) : Key :=
  if facade.place.files.has (EntryKey.ofSource key) ∨ key.head? = some slash then key
  else slash :: key

/-- {lit}`Place.visible` for the fs domain. -/
def visible (key : Key) : Bool :=
  !decide (sep ∈ key) && facade.place.config.visibleFs Metautil.fileExt key

/-- {lit}`Place.cached`. -/
def cached (key : Key) : Bool := facade.place.cached Metautil.fileExt key

/-- {lit}`#within`. -/
def within (key : Key) : Option FilePath :=
  let abs := PosixPath.join facade.root key
  let rel := PosixPath.relativeText [] facade.root abs
  if PosixPath.outside rel = true then none else some abs

/-- {lit}`statSync`, none where it throws: no file has a path that ends in a separator. -/
def statSync (path : FilePath) : Option NodeKind :=
  if sep ∈ path then none
  else
    (facade.disk (PosixPath.resolve [] path)).bind (fun kind =>
      if kind = NodeKind.file ∧ path.getLast? = some PosixPath.separator then none
      else some kind)

def diskStat (key : Key) : Option NodeKind :=
  if facade.fallsBack then (facade.within key).bind facade.statSync else none

/-- {lit}`#diskFile`, by the path of the disk entry it returns. -/
def diskFile (key : Key) : Option FilePath :=
  if facade.fallsBack then
    let canonical := facade.keyOf key
    if sep ∈ canonical ∨ facade.cached canonical = true then none
    else if facade.diskStat canonical = some NodeKind.file then facade.within canonical
    else none
  else none

def diskDir (key : Key) : Bool :=
  facade.diskStat (facade.keyOf key) == some NodeKind.directory

/-- A published version that the place shows. -/
def shown (key : Key) : Option Version :=
  (facade.entry key).filter (fun _ => facade.visible (facade.keyOf key))

/-- {lit}`#file`. -/
def file (key : Key) : Option Found :=
  match facade.shown key with
  | some version => some (Found.published version)
  | none => (facade.diskFile key).map Found.disk

def isDirectory (key : Key) : Bool :=
  facade.place.files.isDirectory key || facade.diskDir key

def exists_ (key : Key) : Bool := (facade.file key).isSome || facade.isDirectory key

/-- {lit}`stat`, by what it says the key is. -/
def stat (key : Key) : Option NodeKind :=
  if (facade.file key).isSome then some NodeKind.file
  else if facade.isDirectory key then some NodeKind.directory
  else none

/-- A version without data is read from its path. -/
def source (key : Key) (found : Found) : Source :=
  match found with
  | Found.published version =>
      version.data.elim (Source.opens (facade.root ++ facade.keyOf key)) Source.memory
  | Found.disk path => Source.opens path

def readFile (key : Key) : Option Source := (facade.file key).map (facade.source key)

def createReadStream (key : Key) : Option Source := (facade.file key).map (facade.source key)

/-- The bytes come from the disk territory whatever is asked. -/
theorem territory_answers {key : Key} {path : FilePath}
    (h : facade.file key = some (Found.disk path)) :
    facade.exists_ key = true ∧ facade.stat key = some NodeKind.file ∧
      facade.readFile key = some (Source.opens path) ∧
      facade.createReadStream key = some (Source.opens path) := by
  unfold exists_ stat readFile createReadStream
  rw [h]
  exact ⟨rfl, rfl, rfl, rfl⟩

end Facade

end SharedMemoryFs
