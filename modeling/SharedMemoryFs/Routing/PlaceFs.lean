import SharedMemoryFs.Routing.Router

/-!
# Lookups of the place facade

What {lit}`kernel.fs(name)` answers to {lit}`exists` and {lit}`stat`: the published
files a place shows, and with {lit}`fs.fallback: 'disk'` its disk territory.
-/

namespace SharedMemoryFs

open Foundation

inductive NodeKind where
  | file
  | directory
deriving DecidableEq, Repr

/-- What {lit}`statSync` finds under the names of a resolved path. -/
abbrev DiskView := List PosixPath.Text -> Option NodeKind

/-- The facade of one place.  {lit}`appRoot` is the directory the place lies in. -/
structure PlaceFs where
  place : RoutedPlace
  appRoot : List PosixPath.Text
  fileExt : Key -> Ext
  disk : DiskView

namespace PlaceFs

variable (facade : PlaceFs)

def root : List PosixPath.Text := facade.appRoot ++ [facade.place.config.name.toList]

def fallsBack : Bool := facade.place.fallback == some Fallback.disk

/-- {lit}`Place.entry`: the exact key first, then the form with a leading slash. -/
def entry (key : Key) : Option Version :=
  match facade.place.files.get (EntryKey.ofSource key) with
  | some file => some file
  | none =>
      if key.head? = some slash then none
      else facade.place.files.get (EntryKey.ofSource (slash :: key))

/-- {lit}`Place.keyOf`. -/
def keyOf (key : Key) : Key :=
  if facade.place.files.has (EntryKey.ofSource key) ∨ key.head? = some slash then key
  else slash :: key

/-- {lit}`#within`: the path of a key, missing when the key would leave the place. -/
def within (key : Key) : Option (List PosixPath.Text) :=
  let abs := (PosixPath.split key).foldl PosixPath.enter facade.root
  if PosixPath.Outside (PosixPath.relative facade.root abs) then none else some abs

def diskStat (key : Key) : Option NodeKind :=
  if facade.fallsBack then (facade.within key).bind facade.disk else none

/-- {lit}`#diskFile`: a file of an extension the place does not cache. -/
def diskFile (key : Key) : Bool :=
  facade.fallsBack && !facade.place.cached facade.fileExt (facade.keyOf key) &&
    facade.diskStat (facade.keyOf key) == some NodeKind.file

def diskDir (key : Key) : Bool :=
  facade.diskStat (facade.keyOf key) == some NodeKind.directory

/-- {lit}`#file` found a file. -/
def file (key : Key) : Bool :=
  if (facade.entry key).isSome ∧
      facade.place.config.visibleFs facade.fileExt (facade.keyOf key) = true then true
  else facade.diskFile key

def isDirectory (key : Key) : Bool :=
  facade.place.files.isDirectory key || facade.diskDir key

def exists_ (key : Key) : Bool := facade.file key || facade.isDirectory key

/-- {lit}`stat`, by what it says the key is. -/
def stat (key : Key) : Option NodeKind :=
  if facade.file key then some NodeKind.file
  else if facade.isDirectory key then some NodeKind.directory
  else none

theorem exists_iff (key : Key) :
    facade.exists_ key = (facade.stat key).isSome := by
  unfold exists_ stat
  cases facade.file key with
  | true => rfl
  | false =>
      cases facade.isDirectory key <;> rfl

variable {facade} {names : List PosixPath.Text}

/-- The key of a directory or file named by plain names. -/
theorem keyOf_text : facade.keyOf (PosixPath.text names) = PosixPath.text names ∨
    names = [] := by
  cases names with
  | nil => exact Or.inr rfl
  | cons name rest =>
      left
      unfold keyOf
      exact if_pos (Or.inr rfl)

theorem entry_text (h : names ≠ []) :
    facade.entry (PosixPath.text names) =
      facade.place.files.get (EntryKey.ofSource (PosixPath.text names)) := by
  unfold entry
  cases facade.place.files.get (EntryKey.ofSource (PosixPath.text names)) with
  | some file => rfl
  | none =>
      cases names with
      | nil => exact absurd rfl h
      | cons name rest => exact if_pos rfl

theorem within_text (h : forall name, name ∈ names -> PosixPath.Plain name) :
    facade.within (PosixPath.text names) = some (facade.root ++ names) := by
  have habs : (PosixPath.split (PosixPath.text names)).foldl PosixPath.enter facade.root =
      facade.root ++ names := by
    rw [PosixPath.split_text (fun name hname => (h name hname).2.2.2), List.foldl_cons]
    exact PosixPath.foldl_enter h facade.root
  unfold within
  rw [habs]
  dsimp only
  rw [PosixPath.relative_append]
  refine if_neg ?_
  intro hup
  rcases List.head?_eq_some_iff.mp hup with ⟨rest, hrest⟩
  exact (h PosixPath.up (by rw [hrest]; exact List.mem_cons_self)).2.2.1 rfl

theorem diskStat_text (h : forall name, name ∈ names -> PosixPath.Plain name)
    (hfalls : facade.fallsBack = true) :
    facade.diskStat (PosixPath.text names) = facade.disk (facade.root ++ names) := by
  unfold diskStat
  rw [if_pos hfalls, within_text h]
  rfl

end PlaceFs

end SharedMemoryFs
