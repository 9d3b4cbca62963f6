import SharedMemoryFs.Routing.FsPatch

/-!
# One partial cache, seen twice

A place that falls back to the disk serves its published files and its disk
territory.  The patched functions decide by the router, the facade by its own
lookups.
-/

namespace SharedMemoryFs

open Foundation

/-- A key as a path spells it: the place itself, or names behind slashes. -/
def Normalized (key : Key) : Prop :=
  exists names, key = PosixPath.text names ∧
    forall name, name ∈ names -> PosixPath.Plain name ∧ sep ∉ name

namespace PlaceRegistry

variable {registry : PlaceRegistry}

theorem resolve_within (hroot : forall name, name ∈ registry.appRoot -> PosixPath.Plain name)
    {mount : PosixPath.Text} (hmount : PosixPath.Plain mount) {names : List PosixPath.Text}
    (hnames : forall name, name ∈ names -> PosixPath.Plain name) :
    PosixPath.resolve registry.cwd (PosixPath.text (registry.appRoot ++ mount :: names)) =
      registry.appRoot ++ mount :: names := by
  apply PosixPath.resolve_text
  · intro name hname
    rcases List.mem_append.mp hname with hin | hin
    · exact hroot name hin
    · rcases List.mem_cons.mp hin with heq | hmem
      · rw [heq]
        exact hmount
      · exact hnames name hmem
  · exact List.append_ne_nil_of_right_ne_nil _ (List.cons_ne_nil _ _)

/-- The path of a key of a place is owned by the place under that key. -/
theorem route_within (hroot : forall name, name ∈ registry.appRoot -> PosixPath.Plain name)
    {place : RoutedPlace} (hmount : PosixPath.Plain place.config.name.toList)
    (hplace : registry.get place.config.name.toList = some place) {names : List PosixPath.Text}
    (hnames : forall name, name ∈ names -> PosixPath.Plain name) :
    registry.route
        (PosixPath.text (registry.appRoot ++ place.config.name.toList :: names)) =
      Territory.owned place (PosixPath.text names) := by
  unfold route
  rw [resolve_within hroot hmount hnames]
  dsimp only
  rw [PosixPath.relative_append]
  have hinside : ¬ PosixPath.Outside (place.config.name.toList :: names) := by
    intro hup
    exact hmount.2.2.1 (Option.some.inj hup)
  rw [if_neg hinside]
  dsimp only
  rw [hplace]

end PlaceRegistry

theorem namesDirectory_text {names : List PosixPath.Text} (hne : names ≠ [])
    (h : forall name, name ∈ names -> PosixPath.Plain name) :
    namesDirectory (PosixPath.text names) = false :=
  beq_eq_false_iff_ne.mpr (PosixPath.getLast_text hne h)

namespace FsPatch

variable (patch : FsPatch)

/-- {lit}`kernel.fs`. -/
def facadeOf (place : RoutedPlace) : PlaceFs :=
  { place := place
    appRoot := patch.router.registry.appRoot
    fileExt := patch.router.fileExt
    disk := patch.disk }

/-- What the original {lit}`statSync` finds under a path. -/
def diskAnswer (filePath : FilePath) : Option NodeKind :=
  patch.disk (PosixPath.resolve patch.router.registry.cwd filePath)

/-- What the patched {lit}`existsSync` answers. -/
def existsAnswer (filePath : FilePath) : Bool :=
  match patch.existsSync (PathArg.string filePath) with
  | Except.ok CoreAnswer.native => (patch.diskAnswer filePath).isSome
  | Except.ok (CoreAnswer.answered found) => found
  | _ => false

/-- What the patched {lit}`statSync` answers. -/
def statAnswer (filePath : FilePath) : Option NodeKind :=
  match patch.statOf (PathArg.string filePath) Syscall.stat with
  | Except.ok CoreAnswer.native => patch.diskAnswer filePath
  | Except.ok (CoreAnswer.facade name key) =>
      (patch.router.registry.get name.toList).bind (fun place => (patch.facadeOf place).stat key)
  | Except.ok CoreAnswer.root => some NodeKind.directory
  | _ => none

/-- {lit}`Place.pathOf` of a normalized key. -/
def pathIn (place : RoutedPlace) (key : Key) : FilePath :=
  PosixPath.text (patch.router.registry.appRoot ++ [place.config.name.toList]) ++ key

/-- The patched functions and the facade agree on a key. -/
def Agrees (place : RoutedPlace) (key : Key) : Prop :=
  patch.existsAnswer (patch.pathIn place key) = (patch.facadeOf place).exists_ key ∧
    (patch.existsAnswer (patch.pathIn place key) = true ->
      (patch.facadeOf place).exists_ key = true ->
      patch.statAnswer (patch.pathIn place key) = (patch.facadeOf place).stat key)

/-- The key is a published file the place shows. -/
def shown (place : RoutedPlace) (key : Key) : Bool :=
  place.files.has (EntryKey.ofSource key) &&
    place.config.visibleFs patch.router.fileExt key

/-- A directory on disk under a name of a cached extension, with nothing published
below it and nothing shown at it. -/
def Torn (place : RoutedPlace) (key : Key) : Prop :=
  place.cached patch.router.fileExt key = true ∧ patch.shown place key = false ∧
    place.files.isDirectory key = false ∧
    patch.diskAnswer (patch.pathIn place key) = some NodeKind.directory

/-- A disk-origin place with {lit}`fs.fallback: 'disk'` under strict, whose disk holds
every published entry that has no data of its own. -/
structure PartialCache (place : RoutedPlace) : Prop where
  strict : patch.router.strict = true
  root : forall name, name ∈ patch.router.registry.appRoot -> PosixPath.Plain name
  mount : PosixPath.Plain place.config.name.toList
  registered : patch.router.registry.get place.config.name.toList = some place
  provider : place.provider = Provider.sab ∨ place.provider = Provider.map
  origin : place.origin = some Origin.disk
  fs : place.config.fs.isNone = false
  fallback : place.fallback = some Fallback.disk
  held : forall key version, Normalized key ->
    place.files.get (EntryKey.ofSource key) = some version -> version.data = none ->
    patch.diskAnswer (patch.pathIn place key) = some NodeKind.file

/-!
# What the patched functions answer
-/

variable {patch} {filePath : FilePath}

theorem answers_native (h : patch.router.read filePath = Route.passthrough ∨
      exists place key, patch.router.read filePath = Route.disk place key) :
    patch.existsAnswer filePath = (patch.diskAnswer filePath).isSome ∧
      patch.statAnswer filePath = patch.diskAnswer filePath := by
  unfold existsAnswer statAnswer existsSync statOf readRoute
  rcases h with hroute | ⟨place, key, hroute⟩
  · rw [show pathOf (PathArg.string filePath) = some filePath from rfl]
    dsimp only
    rw [hroute]
    exact ⟨rfl, rfl⟩
  · rw [show pathOf (PathArg.string filePath) = some filePath from rfl]
    dsimp only
    rw [hroute]
    exact ⟨rfl, rfl⟩

/-- The facade itself answers for what its place serves. -/
theorem answers_served {place : RoutedPlace} {key : Key}
    (hplace : patch.router.registry.get place.config.name.toList = some place)
    (h : patch.router.read filePath = Route.file place key ∨
      patch.router.read filePath = Route.dir place key) :
    patch.existsAnswer filePath = true ∧
      patch.statAnswer filePath = (patch.facadeOf place).stat key := by
  unfold existsAnswer statAnswer existsSync statOf readRoute
  rcases h with hroute | hroute
  · rw [show pathOf (PathArg.string filePath) = some filePath from rfl]
    dsimp only
    rw [hroute]
    refine ⟨rfl, ?_⟩
    dsimp only [serveRoute]
    rw [hplace]
    rfl
  · rw [show pathOf (PathArg.string filePath) = some filePath from rfl]
    dsimp only
    rw [hroute]
    refine ⟨rfl, ?_⟩
    dsimp only [serveRoute]
    rw [hplace]
    rfl

theorem answers_denied {code : ErrorCode} (h : patch.router.read filePath = Route.deny code) :
    patch.existsAnswer filePath = false := by
  unfold existsAnswer existsSync
  rw [show pathOf (PathArg.string filePath) = some filePath from rfl]
  dsimp only
  rw [h]

namespace PartialCache

variable {place : RoutedPlace} {names : List PosixPath.Text}

/-!
# One key
-/

/-- The names of a key lie below the directory of the place. -/
theorem pathIn_text (place : RoutedPlace) (names : List PosixPath.Text) :
    patch.pathIn place (PosixPath.text names) =
      PosixPath.text (patch.router.registry.appRoot ++ place.config.name.toList :: names) := by
  unfold pathIn
  rw [← PosixPath.text_append, List.append_assoc]
  rfl

theorem read_text (h : patch.PartialCache place)
    (hnames : forall name, name ∈ names -> PosixPath.Plain name) :
    patch.router.read (patch.pathIn place (PosixPath.text names)) =
      patch.router.served (patch.pathIn place (PosixPath.text names)) place
        (PosixPath.text names) := by
  have hindexed : place.provider.indexed = true := by
    rcases h.provider with heq | heq
    · rw [heq]
      rfl
    · rw [heq]
      rfl
  rw [pathIn_text]
  unfold FsRouter.read
  rw [PlaceRegistry.route_within h.root h.mount h.registered hnames]
  dsimp only
  rw [h.fs, hindexed]
  rfl

theorem namesDirectory_pathIn (h : patch.PartialCache place)
    (hnames : forall name, name ∈ names -> PosixPath.Plain name) :
    namesDirectory (patch.pathIn place (PosixPath.text names)) = false := by
  rw [pathIn_text]
  apply namesDirectory_text
  · exact List.append_ne_nil_of_right_ne_nil _ (List.cons_ne_nil _ _)
  · intro name hname
    rcases List.mem_append.mp hname with hin | hin
    · exact h.root name hin
    · rcases List.mem_cons.mp hin with heq | hmem
      · rw [heq]
        exact h.mount
      · exact hnames name hmem

/-- Both look at the same path of the disk. -/
theorem diskStat_text (h : patch.PartialCache place)
    (hnames : forall name, name ∈ names -> PosixPath.Plain name) :
    (patch.facadeOf place).diskStat (PosixPath.text names) =
      patch.diskAnswer (patch.pathIn place (PosixPath.text names)) := by
  have hfalls : (patch.facadeOf place).fallsBack = true := beq_iff_eq.mpr h.fallback
  rw [PlaceFs.diskStat_text hnames hfalls]
  unfold diskAnswer
  rw [pathIn_text, PlaceRegistry.resolve_within h.root h.mount hnames]
  show patch.disk ((_ ++ [_]) ++ names) = _
  rw [List.append_assoc]
  rfl

theorem served_shown {key : Key} (hnamed : namesDirectory filePath = false) {version : Version}
    (hget : place.files.get (EntryKey.ofSource key) = some version)
    (hvisible : place.config.visibleFs patch.router.fileExt key = true) :
    patch.router.served filePath place key =
      if version.data.isNone then Route.passthrough else Route.file place key := by
  unfold FsRouter.served
  rw [hget]
  dsimp only
  rw [if_pos hvisible, hnamed]
  rfl

theorem served_unshown {key : Key} (hshown : patch.shown place key = false) :
    patch.router.served filePath place key = patch.router.unserved place key := by
  unfold FsRouter.served
  cases hget : place.files.get (EntryKey.ofSource key) with
  | none => rfl
  | some version =>
      have hhas : place.files.has (EntryKey.ofSource key) = true :=
        PlaceFiles.has_iff.mpr ⟨version, hget⟩
      unfold shown at hshown
      rw [hhas, Bool.true_and] at hshown
      dsimp only
      rw [hshown]
      rfl

/-- Under strict what is missing is denied among cached extensions, else the disk's. -/
theorem miss_eq (h : patch.PartialCache place) (key : Key) :
    patch.router.miss place key =
      if place.cached patch.router.fileExt key then Route.deny ErrorCode.eacces
      else Route.disk place key := by
  unfold FsRouter.miss FsRouter.closed
  rw [h.fallback, h.strict]
  cases place.cached patch.router.fileExt key with
  | true => rfl
  | false => rfl

theorem file_shown {key : Key} (hshown : patch.shown place key = true) :
    (patch.facadeOf place).file key = true := by
  have hparts := (Bool.and_eq_true _ _).mp hshown
  rcases PlaceFiles.has_iff.mp hparts.1 with ⟨version, hget⟩
  have hentry : (patch.facadeOf place).entry key = some version := by
    unfold PlaceFs.entry
    rw [show (patch.facadeOf place).place = place from rfl, hget]
  have hkey : (patch.facadeOf place).keyOf key = key := if_pos (Or.inl hparts.1)
  unfold PlaceFs.file
  rw [hentry, hkey]
  exact if_pos ⟨rfl, hparts.2⟩

theorem file_unshown (hne : names ≠ []) (hshown : patch.shown place (PosixPath.text names) = false) :
    (patch.facadeOf place).file (PosixPath.text names) =
      (patch.facadeOf place).diskFile (PosixPath.text names) := by
  have hkey : (patch.facadeOf place).keyOf (PosixPath.text names) = PosixPath.text names :=
    PlaceFs.keyOf_text.resolve_right hne
  unfold PlaceFs.file
  rw [PlaceFs.entry_text hne, hkey]
  apply if_neg
  intro hboth
  unfold shown at hshown
  rw [show place.files.has (EntryKey.ofSource (PosixPath.text names)) = true from hboth.1,
    Bool.true_and] at hshown
  rw [show place.config.visibleFs patch.router.fileExt (PosixPath.text names) = true from
    hboth.2] at hshown
  cases hshown

/-- What the facade finds on disk of a key that is not shown. -/
theorem facade_unshown (h : patch.PartialCache place)
    (hnames : forall name, name ∈ names -> PosixPath.Plain name) (hne : names ≠ [])
    (hshown : patch.shown place (PosixPath.text names) = false)
    (hdir : place.files.isDirectory (PosixPath.text names) = false) :
    (patch.facadeOf place).stat (PosixPath.text names) =
      (patch.diskAnswer (patch.pathIn place (PosixPath.text names))).filter (fun kind =>
        !place.cached patch.router.fileExt (PosixPath.text names) ||
          kind == NodeKind.directory) := by
  have hkey : (patch.facadeOf place).keyOf (PosixPath.text names) = PosixPath.text names :=
    PlaceFs.keyOf_text.resolve_right hne
  have hfalls : (patch.facadeOf place).fallsBack = true := beq_iff_eq.mpr h.fallback
  unfold PlaceFs.stat PlaceFs.isDirectory
  rw [file_unshown hne hshown, show (patch.facadeOf place).place.files.isDirectory _ = false from hdir]
  unfold PlaceFs.diskFile PlaceFs.diskDir
  rw [hkey, diskStat_text h hnames, hfalls]
  rw [show (patch.facadeOf place).place.cached (patch.facadeOf place).fileExt
    (PosixPath.text names) = place.cached patch.router.fileExt (PosixPath.text names) from rfl]
  cases place.cached patch.router.fileExt (PosixPath.text names) with
  | true =>
      cases patch.diskAnswer (patch.pathIn place (PosixPath.text names)) with
      | none => rfl
      | some kind => cases kind <;> rfl
  | false =>
      cases patch.diskAnswer (patch.pathIn place (PosixPath.text names)) with
      | none => rfl
      | some kind => cases kind <;> rfl

/-!
# Agreement
-/

theorem agrees_served (h : patch.PartialCache place) {key : Key}
    (hroute : patch.router.read (patch.pathIn place key) = Route.file place key ∨
      patch.router.read (patch.pathIn place key) = Route.dir place key)
    (hexists : (patch.facadeOf place).exists_ key = true) : patch.Agrees place key := by
  have hanswers := answers_served h.registered hroute
  constructor
  · rw [hanswers.1, hexists]
  · intro _ _
    exact hanswers.2

theorem agrees_shown (h : patch.PartialCache place)
    (hnames : forall name, name ∈ names -> PosixPath.Plain name ∧ sep ∉ name)
    (hshown : patch.shown place (PosixPath.text names) = true) :
    patch.Agrees place (PosixPath.text names) := by
  have hplain := fun name hname => (hnames name hname).1
  have hfile := file_shown hshown
  have hparts := (Bool.and_eq_true _ _).mp hshown
  rcases PlaceFiles.has_iff.mp hparts.1 with ⟨version, hget⟩
  have hread := h.read_text hplain
  rw [served_shown (h.namesDirectory_pathIn hplain) hget hparts.2] at hread
  have hexists : (patch.facadeOf place).exists_ (PosixPath.text names) = true := by
    unfold PlaceFs.exists_
    rw [hfile]
    rfl
  cases hdata : version.data with
  | some data =>
      rw [hdata] at hread
      exact agrees_served h (Or.inl hread) hexists
  | none =>
      rw [hdata] at hread
      have hanswers := answers_native (Or.inl hread)
      rw [h.held _ version ⟨names, rfl, hnames⟩ hget hdata] at hanswers
      constructor
      · rw [hanswers.1, hexists]
        rfl
      · intro _ _
        rw [hanswers.2]
        unfold PlaceFs.stat
        rw [hfile]
        rfl

/-- The patched functions and the facade agree on every key, the disk's directories
under cached names apart. -/
theorem agrees_iff {patch : FsPatch} {place : RoutedPlace} (h : patch.PartialCache place)
    {key : Key} (hkey : Normalized key) : patch.Agrees place key <-> ¬ patch.Torn place key := by
  rcases hkey with ⟨names, rfl, hnames⟩
  have hplain := fun name hname => (hnames name hname).1
  cases hshown : patch.shown place (PosixPath.text names) with
  | true =>
      refine iff_of_true (agrees_shown h hnames hshown) ?_
      intro htorn
      rw [htorn.2.1] at hshown
      cases hshown
  | false =>
      have hread := h.read_text hplain
      rw [served_unshown hshown] at hread
      unfold FsRouter.unserved at hread
      cases hdir : place.files.isDirectory (PosixPath.text names) with
      | true =>
          rw [hdir] at hread
          refine iff_of_true (agrees_served h (Or.inr hread) ?_) ?_
          · unfold PlaceFs.exists_ PlaceFs.isDirectory
            rw [show (patch.facadeOf place).place.files.isDirectory _ = true from hdir,
              Bool.true_or, Bool.or_true]
          · intro htorn
            rw [htorn.2.2.1] at hdir
            cases hdir
      | false =>
          have hne : names ≠ [] := by
            intro hnil
            rw [hnil] at hdir
            cases hdir
          have hstat := h.facade_unshown hplain hne hshown hdir
          rw [hdir, if_neg Bool.false_ne_true, h.miss_eq] at hread
          cases hcached : place.cached patch.router.fileExt (PosixPath.text names) with
          | false =>
              rw [hcached] at hread hstat
              have hanswers := answers_native (Or.inr ⟨place, _, hread⟩)
              have hsame : (patch.facadeOf place).stat (PosixPath.text names) =
                  patch.diskAnswer (patch.pathIn place (PosixPath.text names)) := by
                rw [hstat]
                cases patch.diskAnswer (patch.pathIn place (PosixPath.text names)) <;> rfl
              refine iff_of_true ⟨?_, ?_⟩ ?_
              · rw [hanswers.1, PlaceFs.exists_iff, hsame]
              · intro _ _
                rw [hanswers.2, hsame]
              · intro htorn
                rw [htorn.1] at hcached
                cases hcached
          | true =>
              rw [hcached] at hread hstat
              have hdenied : patch.existsAnswer (patch.pathIn place (PosixPath.text names)) =
                  false := answers_denied hread
              have hexists := (patch.facadeOf place).exists_iff (PosixPath.text names)
              rw [hstat] at hexists
              constructor
              · intro hagrees htorn
                rw [htorn.2.2.2] at hexists
                rw [hagrees.1, hexists] at hdenied
                cases hdenied
              · intro htorn
                have hnone : (patch.facadeOf place).exists_ (PosixPath.text names) = false := by
                  rw [hexists]
                  cases hdisk : patch.diskAnswer
                      (patch.pathIn place (PosixPath.text names)) with
                  | none => rfl
                  | some kind =>
                      cases kind with
                      | file => rfl
                      | directory => exact absurd ⟨hcached, hshown, hdir, hdisk⟩ htorn
                constructor
                · rw [hdenied, hnone]
                · intro hyes
                  rw [hdenied] at hyes
                  cases hyes

/-!
A place that caches scripts, beside a directory of the disk that is named like one.
-/

def demoPlace : RoutedPlace :=
  { config :=
      { name := "app"
        maxFileSize := 64
        require := none
        fs := some { ext := some ["js"], script := none, compress := none }
        prepare := [] }
    provider := Provider.sab
    origin := some Origin.disk
    writable := false
    fallback := some Fallback.disk
    scanExt := some ["js"]
    files := PlaceFiles.empty.set (EntryKey.ofSource ['/', 'a', '.', 'j', 's'])
      { data := some [1], stat := { size := 1, mtimeMs := 0 } }
    sync := true
    originated := disk_originated Provider.sab }

/-- A text, a script and a directory called {lit}`lib.js`. -/
def demoDisk : DiskView := fun names =>
  if names = [['a', 'p', 'p']] then some NodeKind.directory
  else if names = [['a', 'p', 'p'], ['a', '.', 'j', 's']] then some NodeKind.file
  else if names = [['a', 'p', 'p'], ['b', '.', 'm', 'd']] then some NodeKind.file
  else if names = [['a', 'p', 'p'], ['l', 'i', 'b', '.', 'j', 's']] then some NodeKind.directory
  else none

def demoPatch : FsPatch :=
  { router :=
      { registry := { appRoot := [], cwd := [], places := [demoPlace] }
        strict := true
        fileExt := fun key => String.ofList (key.dropWhile (fun c => c ≠ '.')).tail }
    disk := demoDisk
    diskDirectory := fun filePath =>
      demoDisk (PosixPath.resolve [] filePath) == some NodeKind.directory
    renames := fun _ _ _ => Except.ok () }

theorem demo_partialCache : demoPatch.PartialCache demoPlace :=
  { strict := rfl
    root := fun name hname => by cases hname
    mount := by decide
    registered := rfl
    provider := Or.inl rfl
    origin := rfl
    fs := rfl
    fallback := rfl
    held := by
      intro key version _ hget hdata
      have hset : (PlaceFiles.empty.set (EntryKey.ofSource ['/', 'a', '.', 'j', 's'])
          ({ data := some [1], stat := { size := 1, mtimeMs := 0 } } : Version)).get
          (EntryKey.ofSource key) = some version := hget
      rw [PlaceFiles.get_set] at hset
      split_ifs at hset with heq
      · rw [← Option.some.inj hset] at hdata
        cases hdata
      · cases hset }

theorem demo_normalized : Normalized ['/', 'b', '.', 'm', 'd'] :=
  ⟨[['b', '.', 'm', 'd']], rfl, by decide⟩

theorem agrees_iff_demo :
    demoPatch.PartialCache demoPlace ∧ Normalized ['/', 'b', '.', 'm', 'd'] ∧
      demoPatch.Agrees demoPlace ['/', 'b', '.', 'm', 'd'] :=
  ⟨demo_partialCache, demo_normalized,
    (agrees_iff demo_partialCache demo_normalized).mpr (fun htorn => by
      have hcached := htorn.1
      revert hcached
      decide)⟩

/-- The router denies the directory the facade finds. -/
theorem router_denies_directory :
    demoPatch.PartialCache demoPlace ∧ Normalized ['/', 'l', 'i', 'b', '.', 'j', 's'] ∧
      ¬ demoPatch.Agrees demoPlace ['/', 'l', 'i', 'b', '.', 'j', 's'] := by
  refine ⟨demo_partialCache, ⟨[['l', 'i', 'b', '.', 'j', 's']], rfl, by decide⟩, ?_⟩
  intro hagrees
  have hexists := hagrees.1
  revert hexists
  decide

end PartialCache

end FsPatch

end SharedMemoryFs
