import SharedMemoryFs.Foundation.PosixPath
import SharedMemoryFs.Places.MapStore

/-!
# Routing

The registry maps absolute paths to places and keys, and the router turns a path
into one decision, so that nothing else interprets the configuration.  Paths are
those of a POSIX system.
-/

namespace SharedMemoryFs

open Foundation

inductive Provider where
  | sab
  | map
  | sea
  | disk
  | nodeDefault
deriving DecidableEq, Repr

/-- Providers whose files are indexed in a map. -/
def Provider.indexed : Provider -> Bool
  | Provider.sab => true
  | Provider.map => true
  | Provider.sea => true
  | Provider.disk => false
  | Provider.nodeDefault => false

inductive Origin where
  | disk
  | virtual
deriving DecidableEq, Repr

inductive Fallback where
  | disk
  | deny
deriving DecidableEq, Repr

/-- One entry of the live projection; a disk-backed one has no data. -/
structure Version where
  data : Option Bytes
  stat : Stat
deriving DecidableEq, Repr

/-- A place as the router sees it.  {lit}`sync` is false when the mutations of its
store have to reach the main kernel. -/
structure RoutedPlace where
  config : PlaceConfig
  provider : Provider
  origin : Option Origin
  writable : Bool
  fallback : Option Fallback
  scanExt : Option (List Ext)
  files : PlaceFiles Version
  sync : Bool
  originated : origin = some Origin.virtual -> provider = Provider.sab ∨ provider = Provider.map

/-- A disk origin asks nothing of the provider. -/
theorem disk_originated (provider : Provider) (h : some Origin.disk = some Origin.virtual) :
    provider = Provider.sab ∨ provider = Provider.map := by
  cases h

namespace RoutedPlace

def virtual (place : RoutedPlace) : Bool := place.origin == some Origin.virtual

/-- The place caches files of this key's extension. -/
def cached (fileExt : Key -> Ext) (place : RoutedPlace) (key : Key) : Bool :=
  place.scanExt.all (fun ext => ext.contains (fileExt key))

theorem indexed_of_virtual {place : RoutedPlace} (h : place.virtual = true) :
    place.provider.indexed = true := by
  rcases place.originated (beq_iff_eq.mp h) with heq | heq
  · rw [heq]
    rfl
  · rw [heq]
    rfl

end RoutedPlace

/-!
# The registry
-/

abbrev FilePath := PosixPath.Text

/-- A path that ends in a separator names a directory. -/
def namesDirectory (filePath : FilePath) : Bool :=
  filePath.getLast? == some PosixPath.separator

/-- Where a path lies: outside {lit}`appRoot`, at it, below it but owned by nobody,
or in a place. -/
inductive Territory where
  | outside
  | appRoot
  | unmanaged
  | owned (place : RoutedPlace) (key : Key)

structure PlaceRegistry where
  appRoot : List PosixPath.Text
  cwd : List PosixPath.Text
  places : List RoutedPlace

namespace PlaceRegistry

def get (registry : PlaceRegistry) (mount : PosixPath.Text) : Option RoutedPlace :=
  registry.places.find? (fun place => decide (place.config.name.toList = mount))

def route (registry : PlaceRegistry) (filePath : FilePath) : Territory :=
  let rel := PosixPath.relative registry.appRoot (PosixPath.resolve registry.cwd filePath)
  if PosixPath.Outside rel then Territory.outside
  else
    match rel with
    | [] => Territory.appRoot
    | mount :: names =>
        match registry.get mount with
        | none => Territory.unmanaged
        | some place => Territory.owned place (PosixPath.text names)

/-- A walk from here enters the places. -/
def encloses (registry : PlaceRegistry) (filePath : FilePath) : Bool :=
  !decide (PosixPath.Outside
    (PosixPath.relative (PosixPath.resolve registry.cwd filePath) registry.appRoot))

end PlaceRegistry

/-!
# The router
-/

inductive Route where
  | file (place : RoutedPlace) (key : Key)
  | dir (place : RoutedPlace) (key : Key)
  | root
  | disk (place : RoutedPlace) (key : Key)
  | passthrough
  | deny (code : ErrorCode)
  | store (place : RoutedPlace) (key : Key)
  | canonical (place : RoutedPlace) (key : Key)
  | crossing
  | unsupported

structure FsRouter where
  registry : PlaceRegistry
  strict : Bool
  fileExt : Key -> Ext

namespace FsRouter

variable (router : FsRouter)

/-- What strict routing refuses is ordinary Node otherwise. -/
def closed : Route := if router.strict then Route.deny ErrorCode.eacces else Route.passthrough

/-- {lit}`#miss`: a path an indexed place does not serve. -/
def miss (place : RoutedPlace) (key : Key) : Route :=
  if place.fallback = some Fallback.deny then Route.deny ErrorCode.eacces
  else if place.fallback = some Fallback.disk ∧
      (!router.strict || !place.cached router.fileExt key) then Route.disk place key
  else router.closed

/-- What an indexed place answers for a key that is no visible file. -/
def unserved (place : RoutedPlace) (key : Key) : Route :=
  if place.files.isDirectory key then Route.dir place key else router.miss place key

def served (filePath : FilePath) (place : RoutedPlace) (key : Key) : Route :=
  match place.files.get (EntryKey.ofSource key) with
  | none => router.unserved place key
  | some file =>
      if place.config.visibleFs router.fileExt key then
        if namesDirectory filePath then Route.deny ErrorCode.enotdir
        else if file.data.isNone then Route.passthrough
        else Route.file place key
      else router.unserved place key

def read (filePath : FilePath) : Route :=
  match router.registry.route filePath with
  | Territory.outside => Route.passthrough
  | Territory.appRoot => if router.strict then Route.root else Route.passthrough
  | Territory.unmanaged => router.closed
  | Territory.owned place key =>
      if place.config.fs.isNone then router.closed
      else if !place.provider.indexed then Route.passthrough
      else router.served filePath place key

def mutate (filePath : FilePath) : Route :=
  match router.registry.route filePath with
  | Territory.outside => Route.passthrough
  | Territory.appRoot => router.closed
  | Territory.unmanaged => router.closed
  | Territory.owned place key =>
      if place.config.fs.isNone then router.closed
      else if place.provider = Provider.nodeDefault then Route.passthrough
      else if !place.writable then Route.deny ErrorCode.erofs
      else if place.virtual then
        Route.store place
          (if key ≠ [] ∧ namesDirectory filePath then key ++ [PosixPath.separator] else key)
      else Route.passthrough

/-- {lit}`#indexed`: the indexed place that owns a path. -/
def indexed (filePath : FilePath) : Option PlaceName :=
  match router.registry.route filePath with
  | Territory.owned place _ => if place.provider.indexed then some place.config.name else none
  | _ => none

def copy (filePath : FilePath) (recursive : Bool) : Route :=
  match router.read filePath with
  | Route.deny code => Route.deny code
  | route =>
      if recursive then
        if (router.indexed filePath).isSome ∨ router.registry.encloses filePath = true then
          Route.unsupported
        else Route.passthrough
      else
        match route with
        | Route.dir _ _ => Route.unsupported
        | Route.root => Route.unsupported
        | Route.file place key =>
            if !place.virtual ∧ place.provider ≠ Provider.sea then Route.passthrough
            else if (place.config.prepared router.fileExt key).isSome then Route.unsupported
            else Route.canonical place key
        | _ => Route.passthrough

def rename (source target : FilePath) : Route :=
  match router.read source with
  | Route.deny code => Route.deny code
  | _ =>
      if router.registry.encloses source then Route.unsupported
      else if router.indexed source = router.indexed target then Route.passthrough
      else Route.crossing

def link (source target : FilePath) : Route :=
  match router.read source with
  | Route.deny code => Route.deny code
  | Route.passthrough =>
      match router.mutate target with
      | Route.deny code => Route.deny code
      | _ =>
          if (router.indexed source).isSome ∨ (router.indexed target).isSome then
            Route.unsupported
          else Route.passthrough
  | _ =>
      match router.mutate target with
      | Route.deny code => Route.deny code
      | _ => Route.unsupported

/-!
# Facts about decisions
-/

theorem closed_cases : router.closed = Route.passthrough ∨
    exists code, router.closed = Route.deny code := by
  unfold closed
  by_cases hstrict : router.strict = true
  · exact Or.inr ⟨_, if_pos hstrict⟩
  · exact Or.inl (if_neg hstrict)

/-- A mutation is native, refused or the store's. -/
theorem mutate_cases (filePath : FilePath) :
    router.mutate filePath = Route.passthrough ∨
      (exists code, router.mutate filePath = Route.deny code) ∨
      exists place key, router.mutate filePath = Route.store place key ∧
        (router.indexed filePath).isSome = true := by
  have hclosed : router.mutate filePath = router.closed ->
      router.mutate filePath = Route.passthrough ∨
        (exists code, router.mutate filePath = Route.deny code) ∨
        exists place key, router.mutate filePath = Route.store place key ∧
          (router.indexed filePath).isSome = true := by
    intro heq
    rw [heq]
    rcases router.closed_cases with h | h
    · exact Or.inl h
    · exact Or.inr (Or.inl h)
  cases hroute : router.registry.route filePath with
  | outside =>
      unfold mutate
      rw [hroute]
      exact Or.inl rfl
  | appRoot =>
      apply hclosed
      unfold mutate
      rw [hroute]
  | unmanaged =>
      apply hclosed
      unfold mutate
      rw [hroute]
  | owned place key =>
      by_cases hfs : place.config.fs.isNone = true
      · apply hclosed
        unfold mutate
        rw [hroute]
        exact if_pos hfs
      · unfold mutate
        rw [hroute]
        dsimp only
        rw [if_neg hfs]
        by_cases hdefault : place.provider = Provider.nodeDefault
        · rw [if_pos hdefault]
          exact Or.inl rfl
        · rw [if_neg hdefault]
          by_cases hwritable : (!place.writable) = true
          · rw [if_pos hwritable]
            exact Or.inr (Or.inl ⟨_, rfl⟩)
          · rw [if_neg hwritable]
            by_cases hvirtual : place.virtual = true
            · rw [if_pos hvirtual]
              refine Or.inr (Or.inr ⟨place, _, rfl, ?_⟩)
              unfold indexed
              rw [hroute]
              dsimp only
              rw [if_pos (RoutedPlace.indexed_of_virtual hvirtual)]
              rfl
            · rw [if_neg hvirtual]
              exact Or.inl rfl

/-- A recursive copy passes no indexed place. -/
theorem copy_recursive_indexed {filePath : FilePath}
    (h : (router.indexed filePath).isSome = true) :
    router.copy filePath true ≠ Route.passthrough := by
  unfold copy
  cases router.read filePath with
  | deny code => exact fun heq => by cases heq
  | _ =>
      dsimp only
      rw [if_pos rfl, if_pos (Or.inl h)]
      exact fun heq => by cases heq

theorem link_passthrough {source target : FilePath}
    (h : router.link source target = Route.passthrough) :
    router.mutate target = Route.passthrough := by
  unfold link at h
  rcases router.mutate_cases target with hpass | ⟨code, hdeny⟩ | ⟨place, key, hstore, hindexed⟩
  · exact hpass
  · rw [hdeny] at h
    cases hread : router.read source with
    | _ =>
        rw [hread] at h
        cases h
  · rw [hstore] at h
    cases hread : router.read source with
    | passthrough =>
        rw [hread] at h
        dsimp only at h
        rw [if_pos (Or.inr hindexed)] at h
        cases h
    | _ =>
        rw [hread] at h
        cases h

/-- A hidden source is hidden from every compound decision. -/
theorem copy_of_deny {filePath : FilePath} {code : ErrorCode}
    (h : router.read filePath = Route.deny code) (recursive : Bool) :
    router.copy filePath recursive = Route.deny code := by
  unfold copy
  rw [h]

theorem rename_of_deny {source : FilePath} {code : ErrorCode}
    (h : router.read source = Route.deny code) (target : FilePath) :
    router.rename source target = Route.deny code := by
  unfold rename
  rw [h]

theorem link_of_deny {source : FilePath} {code : ErrorCode}
    (h : router.read source = Route.deny code) (target : FilePath) :
    router.link source target = Route.deny code := by
  unfold link
  rw [h]

end FsRouter

end SharedMemoryFs
