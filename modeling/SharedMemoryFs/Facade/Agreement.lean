import SharedMemoryFs.Facade.Listing

/-!
# Listings and lookups

The listing filters the files of the disk by their relative names and a lookup by the
full key; the two rules differ for a name without a dot.  {lit}`listings_agree_iff` says of
which places the listings agree with the lookups.
-/

namespace SharedMemoryFs

open Foundation

namespace ListedFacade

variable {beta : Type} {facade : ListedFacade beta} {dir key rel : Key}
  {name : PosixPath.Text} {directory : Bool}

/-!
# Extensions of names
-/

theorem cached_nameExt (facade : ListedFacade beta) (dir dir' name : Key) :
    facade.cached (dir ++ slash :: name) = facade.cached (dir' ++ slash :: name) := by
  unfold Facade.cached RoutedPlace.cached
  rw [fileExt_nameExt dir dir' name]

theorem cached_empty (hfalls : facade.fallsBack = true)
    (h : Metautil.fileExt key = "") : facade.cached key = false := by
  cases hlist : facade.place.scanExt with
  | none => exact absurd hlist (facade.finite (beq_iff_eq.mp hfalls))
  | some list =>
      unfold Facade.cached RoutedPlace.cached
      rw [hlist, h]
      exact Bool.eq_false_iff.mpr
        (fun hmem => facade.exts list hlist (List.contains_iff_mem.mp hmem))

/-- No key whose last name has no dot is cached. -/
theorem cached_undotted (hfalls : facade.fallsBack = true) (hdot : '.' ∉ name) (dir : Key) :
    facade.cached (dir ++ slash :: name) = false := by
  apply cached_empty hfalls
  have hmem : '.' ∉ slash :: name := by
    intro hcons
    rcases List.mem_cons.mp hcons with heq | hname
    · exact absurd heq (by decide)
    · exact hdot hname
  unfold Metautil.fileExt
  rw [afterLast_of_not_mem hmem, if_pos (List.mem_append_right _ List.mem_cons_self)]

theorem cached_dotted (hdot : '.' ∈ name) (dir : Key) :
    facade.cached (dir ++ slash :: name) = facade.cached name := by
  have hlast : afterLast '.' (dir ++ slash :: name) = afterLast '.' name := by
    have happend : dir ++ slash :: name = (dir ++ [slash]) ++ name := by
      rw [List.append_assoc]
      rfl
    rw [happend, afterLast_append hdot]
  unfold Facade.cached RoutedPlace.cached Metautil.fileExt
  rw [hlast]

/-- A name that the listing keeps is kept by a lookup too. -/
theorem uncached_below (hfalls : facade.fallsBack = true) (h : facade.cached name = false)
    (dir : Key) : facade.cached (dir ++ slash :: name) = false := by
  by_cases hdot : '.' ∈ name
  · rw [cached_dotted hdot]
    exact h
  · exact cached_undotted hfalls hdot dir

/-!
# Lookups
-/

/-- A file of the disk territory. -/
structure DiskFile (facade : ListedFacade beta) (key : Key) : Prop where
  falls : facade.fallsBack = true
  inside : facade.rootNames <+: facade.entered key
  present : facade.disk (facade.entered key) = some NodeKind.file
  raw : facade.cached key = false

/-- The key of a file or directory below the place: a leading slash, none at the end
and no NUL. -/
structure Named (key : Key) : Prop where
  plain : PlaceFiles.Plain key
  bare : sep ∉ key

theorem Named.keyOf (h : Named key) (facade : ListedFacade beta) : facade.keyOf key = key := by
  rcases h.plain.1 with ⟨rest, heq⟩
  rw [Facade.keyOf_eq, heq]
  exact if_pos rfl

theorem shown_iff (h : Named key) : facade.shown key = none <-> ¬ facade.Shows key := by
  have hentry : facade.entry key = facade.place.files.get (EntryKey.ofSource key) := by
    unfold Facade.entry
    rw [if_neg h.bare]
    rcases h.plain.1 with ⟨rest, heq⟩
    cases facade.place.files.get (EntryKey.ofSource key) with
    | some version => rfl
    | none =>
        rw [heq]
        exact if_pos rfl
  unfold Facade.shown Shows
  rw [hentry, h.keyOf]
  unfold PlaceFiles.hasSource
  rw [PlaceFiles.has_iff]
  cases hget : facade.place.files.get (EntryKey.ofSource key) with
  | none =>
      constructor
      · intro _ hshows
        rcases hshows.1 with ⟨version, hversion⟩
        cases hversion
      · intro _
        rfl
  | some version =>
      rw [Option.filter_some]
      constructor
      · intro hnone hshows
        rw [if_pos hshows.2] at hnone
        cases hnone
      · intro hnot
        exact if_neg (fun hvisible => hnot ⟨⟨version, rfl⟩, hvisible⟩)

theorem diskFile_none_iff (h : Named key) : facade.diskFile key = none <->
    ¬ facade.DiskFile key := by
  constructor
  · intro hnone hfile
    have hsome : facade.diskFile key = some (PosixPath.text (facade.entered key)) :=
      Facade.diskFile_iff.mpr ⟨hfile.falls, h.bare, by rw [h.keyOf]; exact hfile.raw, hfile.inside, hfile.present,
        by rw [h.keyOf]; exact h.plain.2, rfl⟩
    rw [hnone] at hsome
    cases hsome
  · intro hnot
    cases hdisk : facade.diskFile key with
    | none => rfl
    | some path =>
        rcases Facade.diskFile_iff.mp hdisk with ⟨hfalls, _, hraw, hinside, hpresent, _, _⟩
        rw [h.keyOf] at hraw
        exact absurd ⟨hfalls, hinside, hpresent, hraw⟩ hnot

theorem file_none_iff (h : Named key) : facade.file key = none <->
    ¬ facade.Shows key ∧ ¬ facade.DiskFile key := by
  rw [← shown_iff h, ← diskFile_none_iff h]
  unfold Facade.file
  cases facade.shown key with
  | some version =>
      constructor
      · intro hnone
        cases hnone
      · intro hand
        cases hand.1
  | none =>
      constructor
      · intro hnone
        exact ⟨rfl, Option.map_eq_none_iff.mp hnone⟩
      · intro hand
        exact Option.map_eq_none_iff.mpr hand.2

theorem diskDir_iff (h : Named key) : facade.diskDir key = true <-> facade.OnDisk key := by
  have hstat : facade.diskStat key = some NodeKind.directory <-> facade.OnDisk key := by
    unfold Facade.diskStat
    constructor
    · intro hdir
      split_ifs at hdir with hfalls
      rcases Option.bind_eq_some_iff.mp hdir with ⟨path, hpath, hsync⟩
      rw [Facade.statSync_within h.bare hpath] at hsync
      rcases Option.bind_eq_some_iff.mp hsync with ⟨kind, hkind, heq⟩
      split_ifs at heq
      rw [Option.some.inj heq] at hkind
      rw [Facade.within_eq] at hpath
      split_ifs at hpath with hinside
      exact ⟨hfalls, hinside, hkind⟩
    · intro honDisk
      have hpath := facade.within_eq key
      rw [if_pos honDisk.inside] at hpath
      rw [if_pos honDisk.falls, hpath, Option.bind_some, Facade.statSync_within h.bare hpath,
        honDisk.present, Option.bind_some]
      exact if_neg (fun hand => by cases hand.1)
  unfold Facade.diskDir
  rw [h.keyOf, beq_iff_eq]
  exact hstat

theorem isDirectory_iff (h : Named key) : facade.isDirectory key = true <->
    facade.place.files.hasDirectory key = true ∨ facade.OnDisk key := by
  have hne : key ≠ [] := by
    rcases h.plain.1 with ⟨rest, heq⟩
    rw [heq]
    exact List.cons_ne_nil _ _
  unfold Facade.isDirectory PlaceFiles.isDirectory
  rw [PlaceFiles.dirOf_plain h.plain, Bool.or_eq_true, Bool.or_eq_true, List.isEmpty_iff,
    diskDir_iff h]
  exact or_congr_left (or_iff_right hne)

theorem exists_iff (h : Named key) : facade.exists_ key = true <->
    (facade.Shows key ∨ facade.DiskFile key) ∨
      facade.place.files.hasDirectory key = true ∨ facade.OnDisk key := by
  unfold Facade.exists_
  rw [Bool.or_eq_true, isDirectory_iff h, ← Option.ne_none_iff_isSome, ne_eq, file_none_iff h,
    not_and_or, not_not, not_not]

def kindOf (directory : Bool) : NodeKind :=
  if directory then NodeKind.directory else NodeKind.file

theorem stat_file (h : Named key) (hfile : facade.Shows key ∨ facade.DiskFile key) :
    facade.stat key = some (kindOf false) := by
  have hsome : facade.file key ≠ none := by
    intro hnone
    rcases (file_none_iff h).mp hnone with ⟨hshows, hdisk⟩
    exact hfile.elim hshows hdisk
  unfold Facade.stat
  exact if_pos (Option.ne_none_iff_isSome.mp hsome)

theorem stat_directory (h : Named key) (hshows : ¬ facade.Shows key)
    (hdisk : ¬ facade.DiskFile key)
    (hdir : facade.place.files.hasDirectory key = true ∨ facade.OnDisk key) :
    facade.stat key = some (kindOf true) := by
  unfold Facade.stat
  rw [(file_none_iff h).mpr ⟨hshows, hdisk⟩, Option.isSome_none, if_neg Bool.false_ne_true,
    if_pos ((isDirectory_iff h).mpr hdir)]
  rfl

/-!
# Directory keys
-/

/-- The key of a directory: empty for the place, else a leading slash and none at the
end. -/
structure DirectoryKey (dir : Key) : Prop where
  trimmed : PlaceFiles.dirOf dir = dir
  bare : sep ∉ dir

theorem DirectoryKey.rooted (h : DirectoryKey dir) : PlaceFiles.RootedKey dir := by
  have htrimmed := h.trimmed
  unfold PlaceFiles.dirOf at htrimmed
  dsimp only at htrimmed
  split_ifs at htrimmed with hcond
  · rw [htrimmed] at hcond
    rcases hcond with hnil | hhead
    · exact Or.inl hnil
    · exact Or.inr (List.head?_eq_some_iff.mp hhead)
  · exact Or.inr ⟨_, htrimmed.symm⟩

/-- A name below a directory. -/
theorem DirectoryKey.named (h : DirectoryKey dir) (hname : PosixPath.Plain name)
    (hbare : sep ∉ name) : Named (dir ++ slash :: name) := by
  have hhead : exists rest, dir ++ slash :: name = slash :: rest := by
    rcases h.rooted with hnil | ⟨rest, heq⟩
    · rw [hnil]
      exact ⟨name, rfl⟩
    · rw [heq]
      exact ⟨rest ++ slash :: name, rfl⟩
  have hlast : (dir ++ slash :: name).getLast? ≠ some slash := by
    rw [List.getLast?_append_of_ne_nil _ (List.cons_ne_nil _ _),
      List.getLast?_cons_of_ne_nil hname.1]
    intro hlast
    exact hname.2.2.2 (List.mem_of_getLast? hlast)
  constructor
  · exact ⟨hhead, hlast⟩
  · intro hmem
    rcases List.mem_append.mp hmem with hdir | hcons
    · exact h.bare hdir
    · rcases List.mem_cons.mp hcons with heq | hmore
      · exact absurd heq (by decide)
      · exact hbare hmore

theorem Named.directoryKey (h : Named key) : DirectoryKey key :=
  ⟨PlaceFiles.dirOf_plain h.plain, h.bare⟩

theorem entered_name (hname : PosixPath.Plain name) (facade : Facade) (dir : Key) :
    facade.entered (dir ++ slash :: name) = facade.entered dir ++ [name] := by
  have hplain : forall n, n ∈ [name] -> PosixPath.Plain n := by
    intro n hn
    rw [List.mem_singleton.mp hn]
    exact hname
  have hentered := entered_joined (List.cons_ne_nil name []) hplain facade dir
  rw [show PosixPath.joined [name] = name from List.append_nil name] at hentered
  exact hentered

theorem entered_text {names : List PosixPath.Text}
    (h : forall name, name ∈ names -> PosixPath.Plain name) (facade : Facade) :
    facade.entered (PosixPath.text names) = facade.rootNames ++ names := by
  unfold Facade.entered
  rw [PosixPath.split_text (fun name hname => (h name hname).2.2.2), List.foldl_cons]
  exact PosixPath.foldl_enter h facade.rootNames

/-- The directories of the index are texts of plain names. -/
theorem Sound.above (h : Sound facade.place.files) (habove : Above slash dir key)
    (hkey : facade.place.files.hasSource key = true) :
    sep ∉ dir ∧ exists names, (forall name, name ∈ names -> PosixPath.Plain name) ∧
      dir = PosixPath.text names := by
  rcases h.canonical key hkey with ⟨hbare, names, _, hplain, heq⟩
  rcases habove with ⟨rest, hrest⟩
  have hsplit : PosixPath.split dir ++ PosixPath.split rest = [] :: names := by
    rw [← PosixPath.split_append_separator, ← PosixPath.split_text
      (fun name hname => (hplain name hname).2.2.2), ← heq, hrest]
    rfl
  cases hdir : PosixPath.split dir with
  | nil => exact absurd hdir (PosixPath.split_ne_nil dir)
  | cons first above =>
      rw [hdir, List.cons_append] at hsplit
      have hfirst : first = [] := (List.cons.inj hsplit).1
      have htext := PosixPath.text_split dir
      rw [hdir, hfirst] at htext
      constructor
      · intro hmem
        apply hbare
        rw [hrest]
        exact List.mem_append_left _ hmem
      · exact ⟨above, fun name hname => hplain name
          ((List.cons.inj hsplit).2 ▸ List.mem_append_left _ hname),
          (List.cons.inj htext).2.symm⟩

theorem Sound.directoryKey (h : Sound facade.place.files)
    (hdir : facade.place.files.hasDirectory key = true) :
    sep ∉ key ∧ exists names, (forall name, name ∈ names -> PosixPath.Plain name) ∧
      key = PosixPath.text names := by
  rcases (PlaceFiles.hasDirectory_iff h.indexed key).mp hdir with ⟨source, hsource, habove⟩
  exact h.above habove hsource

/-- The last of the names of a text. -/
theorem plain_last {names : List PosixPath.Text}
    (hplain : forall n, n ∈ names -> PosixPath.Plain n) (hslash : slash ∉ name)
    (h : dir ++ slash :: name = PosixPath.text names) : PosixPath.Plain name := by
  have hsplit : PosixPath.split dir ++ [name] = [] :: names := by
    rw [← PosixPath.split_plain hslash, ← PosixPath.split_append_separator,
      ← PosixPath.split_text (fun n hn => (hplain n hn).2.2.2), ← h]
    rfl
  cases hdir : PosixPath.split dir with
  | nil => exact absurd hdir (PosixPath.split_ne_nil dir)
  | cons first above =>
      rw [hdir, List.cons_append] at hsplit
      have hmem : name ∈ names := by
        rw [← (List.cons.inj hsplit).2]
        exact List.mem_append_right _ (List.mem_singleton.mpr rfl)
      exact hplain name hmem

/-- A directory that is accepted lies inside the place. -/
theorem Accepts.inside (h : facade.Accepts dir) (hsound : Sound facade.place.files) :
    facade.rootNames <+: facade.entered dir := by
  rcases h.held with honDisk | hnil | hdir
  · exact honDisk.inside
  · rw [hnil]
    exact List.prefix_refl _
  · rcases hsound.directoryKey hdir with ⟨_, names, hplain, heq⟩
    rw [heq, entered_text hplain facade.toFacade]
    exact List.prefix_append _ _

/-- A listed name can be part of a path. -/
theorem Lists.named (h : facade.Lists dir name directory) (hsound : Sound facade.place.files)
    (hslash : slash ∉ name) : PosixPath.Plain name ∧ sep ∉ name := by
  have hkey : forall {key : Key}, (sep ∉ key ∧ exists names : List PosixPath.Text,
      (forall n, n ∈ names -> PosixPath.Plain n) ∧ key = PosixPath.text names) ->
      key = dir ++ slash :: name -> PosixPath.Plain name ∧ sep ∉ name := by
    intro key hnamed heq
    rcases hnamed with ⟨hbare, names, hplain, htext⟩
    rw [heq] at hbare htext
    exact ⟨plain_last hplain hslash htext, fun hmem => hbare
      (List.mem_append_right _ (List.mem_cons_of_mem _ hmem))⟩
  cases h with
  | directory hdir => exact hkey (hsound.directoryKey hdir) rfl
  | file hshows =>
      rcases hsound.canonical _ hshows.1 with ⟨hbare, names, _, hplain, heq⟩
      exact hkey ⟨hbare, names, hplain, heq⟩ rfl
  | disk _ _ hlists =>
      rcases hlists.present with ⟨names, hne, hplain, heq, hdisk⟩
      rw [heq] at hslash
      rcases (slash_mem_joined hne hplain).mp hslash with ⟨only, honly⟩
      rw [honly] at hdisk heq hplain
      have hname : name = only := heq.trans (List.append_nil only)
      rw [facade.view] at hdisk
      rcases Option.map_eq_some_iff.mp hdisk with ⟨node, hnode, _⟩
      rw [hname]
      constructor
      · exact hplain only List.mem_cons_self
      · intro hmem
        apply facade.named _ node hnode
        rw [PosixPath.text_append]
        exact List.mem_append_right _
          (List.mem_cons_of_mem _ (List.mem_append_left _ hmem))

/-!
# What readdir answers
-/

theorem mem_sorted {names : List Key} : key ∈ sorted names <-> key ∈ names :=
  (List.mergeSort_perm names textOrder).mem_iff

theorem nodup_sorted {names : List Key} (h : names.Nodup) : (sorted names).Nodup :=
  (List.mergeSort_perm names textOrder).nodup_iff.mpr h

/-- The answer of an accepted directory. -/
theorem readdir_spec {recursive : Bool} {names : List Key} (hsound : Sound facade.place.files)
    (hdir : DirectoryKey dir) (h : facade.readdir dir recursive = Except.ok names) :
    facade.Accepts dir ∧ names.Nodup ∧ forall rel, rel ∈ names <->
      (recursive = false -> slash ∉ rel) ∧ exists directory, facade.Lists dir rel directory := by
  unfold readdir at h
  cases hlisting : facade.listing dir recursive with
  | error error =>
      rw [hlisting] at h
      cases h
  | ok held =>
      rw [hlisting] at h
      have hnames : sorted held.keys = names := Except.ok.inj h
      rcases (listing_spec hsound hdir.bare hdir.trimmed).2 held hlisting with
        ⟨haccepts, hheld⟩
      rw [← hnames]
      constructor
      · exact haccepts
      · constructor
        · exact nodup_sorted held.nodup
        · intro rel
          rw [mem_sorted, OrderedMap.mem_keys_iff]
          constructor
          · intro hex
            rcases hex with ⟨directory, hget⟩
            rcases (hheld rel directory).mp hget with ⟨hslash, hlists⟩
            exact ⟨hslash, directory, hlists⟩
          · intro hrel
            rcases hrel with ⟨hslash, directory, hlists⟩
            exact ⟨directory, (hheld rel directory).mpr ⟨hslash, hlists⟩⟩

theorem exists_readdir (hsound : Sound facade.place.files) (hdir : DirectoryKey dir)
    (h : facade.Accepts dir) (recursive : Bool) :
    exists names, facade.readdir dir recursive = Except.ok names := by
  rcases (listing_spec hsound hdir.bare hdir.trimmed).1 h with ⟨held, hheld⟩
  unfold readdir
  rw [hheld]
  exact ⟨_, rfl⟩

theorem afterLast_self (h : slash ∉ name) : afterLast slash name = name := by
  have happend := afterLast_of_not_mem h []
  exact happend

/-- The entries of an accepted directory, one for each name. -/
theorem readdirTypes_spec {dirents : List VfsDirent} (hsound : Sound facade.place.files)
    (hdir : DirectoryKey dir) (h : facade.readdirTypes dir false = Except.ok dirents) :
    facade.Accepts dir ∧ (forall entry, entry ∈ dirents ->
      slash ∉ entry.name ∧ facade.Lists dir entry.name entry.directory) ∧
    forall name directory, slash ∉ name -> facade.Lists dir name directory ->
      exists entry, entry ∈ dirents ∧ entry.name = name ∧ entry.directory = directory := by
  unfold readdirTypes at h
  cases hlisting : facade.listing dir false with
  | error error =>
      rw [hlisting] at h
      cases h
  | ok held =>
      rw [hlisting] at h
      have hdirents : (sorted held.keys).map (facade.dirent (PlaceFiles.dirOf dir) held) =
          dirents := Except.ok.inj h
      rcases (listing_spec hsound hdir.bare hdir.trimmed).2 held hlisting with
        ⟨haccepts, hheld⟩
      rw [← hdirents]
      constructor
      · exact haccepts
      · constructor
        · intro entry hmem
          rcases List.mem_map.mp hmem with ⟨name, hname, hentry⟩
          rcases OrderedMap.mem_keys_iff.mp (mem_sorted.mp hname) with ⟨directory, hget⟩
          rcases (hheld name directory).mp hget with ⟨hslash, hlists⟩
          rw [← hentry]
          unfold dirent
          dsimp only
          rw [afterLast_self (hslash rfl), hget]
          exact ⟨hslash rfl, hlists⟩
        · intro name directory hslash hlists
          have hget := (hheld name directory).mpr ⟨fun _ => hslash, hlists⟩
          have hname := mem_sorted.mpr (OrderedMap.mem_keys_iff.mpr ⟨directory, hget⟩)
          constructor
          · constructor
            · exact List.mem_map.mpr ⟨name, hname, rfl⟩
            · unfold dirent
              dsimp only
              rw [afterLast_self hslash, hget]
              exact ⟨rfl, rfl⟩

theorem exists_readdirTypes (hsound : Sound facade.place.files) (hdir : DirectoryKey dir)
    (h : facade.Accepts dir) :
    exists dirents, facade.readdirTypes dir false = Except.ok dirents := by
  rcases (listing_spec hsound hdir.bare hdir.trimmed).1 h with ⟨held, hheld⟩
  unfold readdirTypes
  rw [hheld]
  exact ⟨_, rfl⟩

/-!
# Agreement
-/

/-- The relative paths reached by listing every listed directory again. -/
inductive Reached (facade : ListedFacade beta) : Key -> Key -> Prop where
  | here {dir : Key} {dirents : List VfsDirent} {entry : VfsDirent} :
      facade.readdirTypes dir false = Except.ok dirents -> entry ∈ dirents ->
      Reached facade dir entry.name
  | deeper {dir rel : Key} {dirents : List VfsDirent} {entry : VfsDirent} :
      facade.readdirTypes dir false = Except.ok dirents -> entry ∈ dirents ->
      entry.directory = true -> Reached facade (dir ++ slash :: entry.name) rel ->
      Reached facade dir (entry.name ++ slash :: rel)

/-- Listings agree with lookups, and a recursive listing with repeated ones. -/
structure Agrees (facade : ListedFacade beta) : Prop where
  names : forall dir names, DirectoryKey dir -> facade.readdir dir false = Except.ok names ->
    forall name, PosixPath.Plain name -> sep ∉ name ->
      (name ∈ names <-> facade.exists_ (dir ++ slash :: name) = true)
  kinds : forall dir dirents, DirectoryKey dir ->
    facade.readdirTypes dir false = Except.ok dirents -> forall entry, entry ∈ dirents ->
      facade.stat (dir ++ slash :: entry.name) = some (kindOf entry.directory)
  recursive : forall dir paths, DirectoryKey dir -> facade.readdir dir true = Except.ok paths ->
    paths.Nodup ∧ forall path, path ∈ paths <-> facade.Reached dir path

/-- What the disk territory may hold beside the published files: no file without a dot
whose name is an extension of the cache, no file where the index has a directory, and
nothing to list below a file that is shown. -/
structure Consistent (facade : ListedFacade beta) : Prop where
  undotted : facade.fallsBack = true -> forall names name,
    facade.disk (facade.rootNames ++ names ++ [name]) = some NodeKind.file -> '.' ∉ name ->
    facade.cached name = false
  apart : facade.fallsBack = true -> forall key,
    facade.place.files.hasDirectory key = true ->
    facade.disk (facade.entered key) = some NodeKind.file -> facade.cached key = true
  unburied : facade.fallsBack = true -> forall key, facade.Shows key -> forall name kind,
    facade.disk (facade.entered key ++ [name]) = some kind ->
    kind = NodeKind.file ∧ facade.cached (key ++ slash :: name) = true

namespace Consistent

/-- A file that a lookup finds is listed by its name. -/
theorem uncached_name (h : facade.Consistent) (hfalls : facade.fallsBack = true)
    (hinside : facade.rootNames <+: facade.entered dir)
    (hdisk : facade.disk (facade.entered dir ++ [name]) = some NodeKind.file)
    (hraw : facade.cached (dir ++ slash :: name) = false) : facade.cached name = false := by
  by_cases hdot : '.' ∈ name
  · rw [← cached_dotted hdot dir]
    exact hraw
  · rcases hinside with ⟨names, hnames⟩
    rw [← hnames] at hdisk
    exact h.undotted hfalls names name hdisk hdot

theorem uncached_rel (h : facade.Consistent) (hfalls : facade.fallsBack = true)
    {names : List PosixPath.Text} (hne : names ≠ [])
    (hplain : forall n, n ∈ names -> PosixPath.Plain n)
    (hinside : facade.rootNames <+: facade.entered dir)
    (hdisk : facade.disk (facade.entered dir ++ names) = some NodeKind.file)
    (hraw : facade.cached (name ++ slash :: PosixPath.joined names) = false) :
    facade.cached (PosixPath.joined names) = false := by
  by_cases hslash : slash ∈ PosixPath.joined names
  · rcases exists_afterLast hslash with ⟨before, heq, _⟩
    have hlong : name ++ slash :: PosixPath.joined names =
        (name ++ slash :: before) ++ slash :: afterLast slash (PosixPath.joined names) := by
      rw [List.append_assoc, List.cons_append, ← heq]
    rw [heq, cached_nameExt facade before (name ++ slash :: before), ← hlong]
    exact hraw
  · rcases (slash_mem_joined hne hplain).mp hslash with ⟨only, honly⟩
    rw [honly] at hdisk hraw ⊢
    have hjoined : PosixPath.joined [only] = only := List.append_nil only
    rw [hjoined] at hraw ⊢
    rw [cached_nameExt facade name dir] at hraw
    exact h.uncached_name hfalls hinside hdisk hraw

end Consistent

theorem uncached_long (hfalls : facade.fallsBack = true) (h : facade.cached rel = false)
    (dir : Key) : facade.cached (dir ++ slash :: rel) = false := by
  by_cases hslash : slash ∈ rel
  · rcases exists_afterLast hslash with ⟨before, heq, _⟩
    have hlong : dir ++ slash :: rel =
        (dir ++ slash :: before) ++ slash :: afterLast slash rel := by
      rw [List.append_assoc, List.cons_append, ← heq]
    rw [heq] at h
    rw [hlong, cached_nameExt facade (dir ++ slash :: before) before]
    exact h
  · exact uncached_below hfalls h dir

/-!
# One step down
-/

/-- The entry of the disk behind a listed name. -/
theorem DiskLists.at_name (h : facade.DiskLists dir name directory) (hslash : slash ∉ name) :
    PosixPath.Plain name ∧ facade.rootNames <+: facade.entered (dir ++ slash :: name) ∧
      facade.disk (facade.entered (dir ++ slash :: name)) = some (kindOf directory) := by
  rcases h.present with ⟨names, hne, hnames, heq, hpresent⟩
  have hsingle : names = [name] := by
    have hsplit := split_joined hne hnames
    rw [← heq, PosixPath.split_plain hslash] at hsplit
    exact hsplit.symm
  have hplain : PosixPath.Plain name := by
    rw [hsingle] at hnames
    exact hnames name List.mem_cons_self
  rw [hsingle] at hpresent
  rw [entered_name hplain]
  exact ⟨hplain, h.inside.trans (List.prefix_append _ _), hpresent⟩

/-- A file that is shown has nothing below it to list. -/
theorem Consistent.unshown (h : facade.Consistent) (hdisk : facade.DiskLists key rel directory)
    (hraw : directory = false -> facade.cached (key ++ slash :: rel) = false) :
    ¬ facade.Shows key := by
  intro hshows
  rcases hdisk.present with ⟨names, hne, hnames, heq, hpresent⟩
  cases names with
  | nil => exact hne rfl
  | cons first more =>
      cases more with
      | nil =>
          rcases h.unburied hdisk.falls key hshows first _ hpresent with ⟨hkind, hcached⟩
          have hfalse : directory = false := by
            cases directory with
            | true => cases hkind
            | false => rfl
          have hfirst : rel = first := heq.trans (List.append_nil first)
          have hkept := hraw hfalse
          rw [hfirst, hcached] at hkept
          cases hkept
      | cons second others =>
          rw [facade.view] at hpresent
          rcases Option.map_eq_some_iff.mp hpresent with ⟨node, hnode, _⟩
          have hlong : facade.entered key ++ first :: second :: others =
              (facade.entered key ++ [first]) ++ second :: others := by
            rw [List.append_assoc]
            rfl
          rw [hlong] at hnode
          rcases Node.get_cons hnode with ⟨parent, _, hparent, hdirectory, _, _⟩
          have hkind := facade.view (facade.entered key ++ [first])
          rw [hparent, Option.map_some, if_pos hdirectory] at hkind
          cases (h.unburied hdisk.falls key hshows first _ hkind).1

/-- Names that lead to something on disk can stand in a key. -/
theorem disk_named {names : List PosixPath.Text} {kind : NodeKind}
    (h : facade.disk (facade.rootNames ++ names) = some kind) :
    (forall n, n ∈ names -> PosixPath.Plain n) ∧ sep ∉ PosixPath.text names := by
  rw [facade.view] at h
  rcases Option.map_eq_some_iff.mp h with ⟨node, hnode, _⟩
  constructor
  · intro n hn
    exact (Node.proper_get facade.proper hnode).2 n (List.mem_append_right _ hn)
  · intro hmem
    apply facade.named _ node hnode
    rw [PosixPath.text_append]
    exact List.mem_append_right _ hmem

theorem disk_parent {names : List PosixPath.Text} {kind : NodeKind}
    (h : facade.disk (names ++ [name]) = some kind) :
    facade.disk names = some NodeKind.directory := by
  rw [facade.view] at h ⊢
  rcases Option.map_eq_some_iff.mp h with ⟨node, hnode, _⟩
  rcases Node.get_cons hnode with ⟨parent, _, hparent, hdirectory, _, _⟩
  rw [hparent, Option.map_some, if_pos hdirectory]

/-- The directory of some names, spelled with a dot at its end. -/
theorem dotted_key {names : List PosixPath.Text}
    (hplain : forall n, n ∈ names -> PosixPath.Plain n) (hbare : sep ∉ PosixPath.text names) :
    Named (PosixPath.text names ++ slash :: PosixPath.dot) ∧
      facade.entered (PosixPath.text names ++ slash :: PosixPath.dot) =
        facade.rootNames ++ names := by
  constructor
  · constructor
    · constructor
      · cases names with
        | nil => exact ⟨PosixPath.dot, rfl⟩
        | cons first rest =>
            exact ⟨first ++ PosixPath.text rest ++ slash :: PosixPath.dot, rfl⟩
      · rw [List.getLast?_append_of_ne_nil _ (List.cons_ne_nil _ _)]
        decide
    · intro hmem
      rcases List.mem_append.mp hmem with htext | hdot
      · exact hbare htext
      · exact absurd hdot (by decide)
  · have hsplit : PosixPath.split (PosixPath.text names ++ slash :: PosixPath.dot) =
        PosixPath.split (PosixPath.text names) ++ [PosixPath.dot] :=
      PosixPath.split_append_separator _ _
    have hentered := entered_text hplain facade.toFacade
    unfold Facade.entered at hentered ⊢
    rw [hsplit, List.foldl_append, hentered]
    rfl

section Step

variable (hsound : Sound facade.place.files)

include hsound

/-- What a lookup says of a listed name. -/
theorem Consistent.stat_listed (h : facade.Consistent) (hdir : DirectoryKey dir)
    (hslash : slash ∉ name) (hlists : facade.Lists dir name directory) :
    facade.stat (dir ++ slash :: name) = some (kindOf directory) ∧
      (directory = true -> facade.file (dir ++ slash :: name) = none) := by
  rcases hlists.named hsound hslash with ⟨hplain, hbare⟩
  have hnamed := hdir.named hplain hbare
  cases hlists with
  | directory hindex =>
      have hshows : ¬ facade.Shows (dir ++ slash :: name) := by
        intro hshows
        have hsource := hshows.1
        rw [hsound.not_source hindex] at hsource
        cases hsource
      have hfile : ¬ facade.DiskFile (dir ++ slash :: name) := by
        intro hfile
        have hcached := h.apart hfile.falls _ hindex hfile.present
        rw [hfile.raw] at hcached
        cases hcached
      exact ⟨stat_directory hnamed hshows hfile (Or.inl hindex),
        fun _ => (file_none_iff hnamed).mpr ⟨hshows, hfile⟩⟩
  | file hshows =>
      constructor
      · exact stat_file hnamed (Or.inl hshows)
      · intro hfalse
        cases hfalse
  | disk _ hshows hdisk =>
      rcases hdisk.at_name hslash with ⟨_, hinside, hpresent⟩
      cases directory with
      | true =>
          have hfile : ¬ facade.DiskFile (dir ++ slash :: name) := by
            intro hfile
            rw [hfile.present] at hpresent
            cases hpresent
          exact ⟨stat_directory hnamed hshows hfile (Or.inr ⟨hdisk.falls, hinside, hpresent⟩),
            fun _ => (file_none_iff hnamed).mpr ⟨hshows, hfile⟩⟩
      | false =>
          constructor
          · exact stat_file hnamed (Or.inr ⟨hdisk.falls, hinside, hpresent,
              uncached_below hdisk.falls (hdisk.kept rfl) dir⟩)
          · intro hfalse
            cases hfalse

/-- A listed directory is accepted in turn. -/
theorem Consistent.accepts (h : facade.Consistent) (hdir : DirectoryKey dir)
    (hslash : slash ∉ name) (hlists : facade.Lists dir name true) :
    facade.Accepts (dir ++ slash :: name) := by
  constructor
  · intro _
    exact (h.stat_listed hsound hdir hslash hlists).2 rfl
  · cases hlists with
    | directory hindex => exact Or.inr (Or.inr hindex)
    | disk _ _ hdisk =>
        rcases hdisk.at_name hslash with ⟨_, hinside, hpresent⟩
        exact Or.inl ⟨hdisk.falls, hinside, hpresent⟩

/-- A name that a lookup finds is listed. -/
theorem Consistent.lists (h : facade.Consistent) (hdir : DirectoryKey dir)
    (haccepts : facade.Accepts dir) (hplain : PosixPath.Plain name) (hbare : sep ∉ name)
    (hexists : facade.exists_ (dir ++ slash :: name) = true) :
    exists directory, facade.Lists dir name directory := by
  have hinside := haccepts.inside hsound
  have hnames : forall n, n ∈ [name] -> PosixPath.Plain n := by
    intro n hn
    rw [List.mem_singleton.mp hn]
    exact hplain
  have hjoined : name = PosixPath.joined [name] := (List.append_nil name).symm
  cases hindex : facade.place.files.hasDirectory (dir ++ slash :: name) with
  | true => exact ⟨true, Lists.directory hindex⟩
  | false =>
      by_cases hshows : facade.Shows (dir ++ slash :: name)
      · exact ⟨false, Lists.file hshows⟩
      · rcases (exists_iff (hdir.named hplain hbare)).mp hexists with
          (hshown | hfile) | (hdirectory | honDisk)
        · exact absurd hshown hshows
        · have hpresent := hfile.present
          rw [entered_name hplain] at hpresent
          exact ⟨false, Lists.disk hindex hshows ⟨hfile.falls, hinside,
            ⟨[name], List.cons_ne_nil _ _, hnames, hjoined, hpresent⟩,
            fun _ => h.uncached_name hfile.falls hinside hpresent hfile.raw⟩⟩
        · rw [hindex] at hdirectory
          cases hdirectory
        · have hpresent := honDisk.present
          rw [entered_name hplain] at hpresent
          exact ⟨true, Lists.disk hindex hshows ⟨honDisk.falls, hinside,
            ⟨[name], List.cons_ne_nil _ _, hnames, hjoined, hpresent⟩,
            fun hfalse => by cases hfalse⟩⟩

/-- The first name on a listed path is a listed directory. -/
theorem Consistent.lists_first (h : facade.Consistent) (hslash : slash ∉ name)
    (hlists : facade.Lists dir (name ++ slash :: rel) directory) :
    facade.Lists dir name true ∧ facade.Lists (dir ++ slash :: name) rel directory := by
  have hkey : dir ++ slash :: (name ++ slash :: rel) = (dir ++ slash :: name) ++ slash :: rel := by
    rw [List.append_assoc, List.cons_append]
  have habove : Above slash (dir ++ slash :: name) ((dir ++ slash :: name) ++ slash :: rel) :=
    ⟨rel, rfl⟩
  have hindexed : forall {key : Key}, facade.place.files.hasSource key = true ->
      Above slash (dir ++ slash :: name) key -> facade.Lists dir name true := fun hkey hdir =>
    Lists.directory ((PlaceFiles.hasDirectory_iff hsound.indexed _).mpr ⟨_, hkey, hdir⟩)
  cases hlists with
  | directory hindex =>
      rw [hkey] at hindex
      rcases (PlaceFiles.hasDirectory_iff hsound.indexed _).mp hindex with
        ⟨source, hsource, hbelow⟩
      exact ⟨hindexed hsource (habove.trans hbelow), Lists.directory hindex⟩
  | file hshows =>
      rw [hkey] at hshows
      exact ⟨hindexed hshows.1 habove, Lists.file hshows⟩
  | disk hindex hshows hdisk =>
      rw [hkey] at hindex hshows
      rcases hdisk.present with ⟨names, hne, hnames, heq, hpresent⟩
      have hsplit : names = name :: PosixPath.split rel := by
        rw [← split_joined hne hnames, ← heq]
        exact PosixPath.split_append hslash rel
      have hrest : forall n, n ∈ PosixPath.split rel -> PosixPath.Plain n := by
        intro n hn
        apply hnames
        rw [hsplit]
        exact List.mem_cons_of_mem name hn
      have hplain : PosixPath.Plain name := by
        apply hnames
        rw [hsplit]
        exact List.mem_cons_self
      have hrel : rel = PosixPath.joined (PosixPath.split rel) := by
        have htext := PosixPath.text_split rel
        cases hcases : PosixPath.split rel with
        | nil => exact absurd hcases (PosixPath.split_ne_nil rel)
        | cons first more =>
            rw [hcases] at htext
            exact (List.cons.inj htext).2.symm
      have hentered : facade.entered dir ++ names =
          facade.entered (dir ++ slash :: name) ++ PosixPath.split rel := by
        rw [hsplit, entered_name hplain, List.append_assoc]
        rfl
      have hinside : facade.rootNames <+: facade.entered (dir ++ slash :: name) := by
        rw [entered_name hplain]
        exact hdisk.inside.trans (List.prefix_append _ _)
      rw [hentered] at hpresent
      have hdeeper : facade.DiskLists (dir ++ slash :: name) rel directory := by
        refine ⟨hdisk.falls, hinside, ⟨PosixPath.split rel, PosixPath.split_ne_nil rel, hrest,
          hrel, hpresent⟩, ?_⟩
        intro hfalse
        have hkept := hdisk.kept hfalse
        rw [hfalse] at hpresent
        rw [hrel] at hkept ⊢
        exact h.uncached_rel hdisk.falls (PosixPath.split_ne_nil rel) hrest hinside hpresent hkept
      constructor
      · cases hfirst : facade.place.files.hasDirectory (dir ++ slash :: name) with
        | true => exact Lists.directory hfirst
        | false =>
            have hunshown : ¬ facade.Shows (dir ++ slash :: name) := by
              apply h.unshown hdeeper
              intro hfalse
              have hkept := uncached_long hdisk.falls (hdeeper.kept hfalse) (dir ++ slash :: name)
              exact hkept
            have honDisk := hdeeper.onDisk.present
            rw [entered_name hplain] at honDisk
            have hsingle : forall n, n ∈ [name] -> PosixPath.Plain n := by
              intro n hn
              rw [List.mem_singleton.mp hn]
              exact hplain
            exact Lists.disk hfirst hunshown ⟨hdisk.falls, hdisk.inside,
              ⟨[name], List.cons_ne_nil _ _, hsingle, (List.append_nil name).symm, honDisk⟩,
              fun hfalse => by cases hfalse⟩
      · exact Lists.disk hindex hshows hdeeper

/-- A path below a listed directory is listed. -/
theorem Lists.deeper (hinside : facade.rootNames <+: facade.entered dir) (hslash : slash ∉ name)
    (hfirst : facade.Lists dir name true)
    (hlists : facade.Lists (dir ++ slash :: name) rel directory) :
    facade.Lists dir (name ++ slash :: rel) directory := by
  have hkey : (dir ++ slash :: name) ++ slash :: rel = dir ++ slash :: (name ++ slash :: rel) := by
    rw [List.append_assoc, List.cons_append]
  have hplain := (hfirst.named hsound hslash).1
  cases hlists with
  | directory hindex =>
      rw [hkey] at hindex
      exact Lists.directory hindex
  | file hshows =>
      rw [hkey] at hshows
      exact Lists.file hshows
  | disk hindex hshows hdisk =>
      rw [hkey] at hindex hshows
      rcases hdisk.present with ⟨names, hne, hnames, heq, hpresent⟩
      have hall : forall n, n ∈ name :: names -> PosixPath.Plain n :=
        List.forall_mem_cons.mpr ⟨hplain, hnames⟩
      have hjoined : name ++ slash :: rel = PosixPath.joined (name :: names) := by
        rw [heq]
        cases names with
        | nil => exact absurd rfl hne
        | cons first more => rfl
      rw [entered_name hplain, List.append_assoc] at hpresent
      exact Lists.disk hindex hshows ⟨hdisk.falls, hinside,
        ⟨name :: names, List.cons_ne_nil _ _, hall, hjoined, hpresent⟩,
        fun hfalse => uncached_long hdisk.falls (hdisk.kept hfalse) name⟩

/-- A recursive listing holds what repeated listings reach. -/
theorem Consistent.reached_of_lists (h : facade.Consistent) (hdir : DirectoryKey dir)
    (haccepts : facade.Accepts dir) (hlists : facade.Lists dir rel directory) :
    facade.Reached dir rel := by
  induction hlength : rel.length using Nat.strong_induction_on generalizing dir rel with
  | _ length ih =>
      rcases exists_readdirTypes hsound hdir haccepts with ⟨dirents, hdirents⟩
      have hentry := (readdirTypes_spec hsound hdir hdirents).2.2
      by_cases hslash : slash ∈ rel
      · rcases List.eq_append_cons_of_mem hslash with ⟨name, rest, heq, hname⟩
        rw [heq] at hlists
        rcases h.lists_first hsound hname hlists with ⟨hfirst, hrest⟩
        rcases hfirst.named hsound hname with ⟨hplain, hbare⟩
        have hlt : rest.length < length := by
          rw [← hlength, heq, List.length_append, List.length_cons]
          omega
        have hdeeper := ih rest.length hlt (hdir.named hplain hbare).directoryKey
          (h.accepts hsound hdir hname hfirst) hrest rfl
        rcases hentry name true hname hfirst with ⟨entry, hmem, hentryName, hdirectory⟩
        rw [← hentryName] at hdeeper
        rw [heq, ← hentryName]
        exact Reached.deeper hdirents hmem hdirectory hdeeper
      · rcases hentry rel directory hslash hlists with ⟨entry, hmem, hentryName, _⟩
        rw [← hentryName]
        exact Reached.here hdirents hmem

theorem Reached.lists (hreached : facade.Reached dir rel) (hdir : DirectoryKey dir) : exists directory, facade.Lists dir rel directory := by
  induction hreached with
  | here hdirents hmem =>
      exact ⟨_, ((readdirTypes_spec hsound hdir hdirents).2.1 _ hmem).2⟩
  | deeper hdirents hmem hdirectory _ ih =>
      rcases readdirTypes_spec hsound hdir hdirents with ⟨haccepts, hentries, _⟩
      rcases hentries _ hmem with ⟨hslash, hlists⟩
      rw [hdirectory] at hlists
      rcases hlists.named hsound hslash with ⟨hplain, hbare⟩
      rcases ih (hdir.named hplain hbare).directoryKey with ⟨directory, hrest⟩
      exact ⟨directory, Lists.deeper hsound (haccepts.inside hsound) hslash hlists hrest⟩

theorem Consistent.agrees (h : facade.Consistent) : facade.Agrees := by
  constructor
  · intro dir names hdir hnames name hplain hbare
    rcases readdir_spec hsound hdir hnames with ⟨haccepts, _, hmem⟩
    rw [hmem]
    constructor
    · intro hlisted
      rcases hlisted with ⟨_, directory, hlists⟩
      have hstat := (h.stat_listed hsound hdir hplain.2.2.2 hlists).1
      unfold Facade.stat at hstat
      unfold Facade.exists_
      rw [Bool.or_eq_true]
      split_ifs at hstat with hfile hdirectory
      · exact Or.inl hfile
      · exact Or.inr hdirectory
    · intro hexists
      exact ⟨fun _ => hplain.2.2.2, h.lists hsound hdir haccepts hplain hbare hexists⟩
  · intro dir dirents hdir hdirents entry hmem
    rcases (readdirTypes_spec hsound hdir hdirents).2.1 entry hmem with ⟨hslash, hlists⟩
    exact (h.stat_listed hsound hdir hslash hlists).1
  · intro dir paths hdir hpaths
    rcases readdir_spec hsound hdir hpaths with ⟨haccepts, hnodup, hmem⟩
    constructor
    · exact hnodup
    · intro path
      rw [hmem]
      constructor
      · intro hlisted
        rcases hlisted.2 with ⟨directory, hlists⟩
        exact h.reached_of_lists hsound hdir haccepts hlists
      · intro hreached
        exact ⟨(fun hfalse => by cases hfalse), hreached.lists hsound hdir⟩

/-!
# Where they disagree
-/

/-- No published key ends in a dot name. -/
theorem not_above_dotted {above : Key}
    (hkey : facade.place.files.hasSource key = true)
    (h : key = above ++ slash :: PosixPath.dot ∨
      Above slash (above ++ slash :: PosixPath.dot) key) : False := by
  have hdot : exists names, (forall n, n ∈ names -> PosixPath.Plain n) ∧
      above ++ slash :: PosixPath.dot = PosixPath.text names := by
    rcases h with heq | habove
    · rcases hsound.canonical key hkey with ⟨_, names, _, hplain, htext⟩
      exact ⟨names, hplain, heq.symm.trans htext⟩
    · exact (hsound.above habove hkey).2
  rcases hdot with ⟨names, hplain, htext⟩
  exact (plain_last hplain (by decide) htext).2.1 rfl

theorem Agrees.undotted (h : facade.Agrees) (hfalls : facade.fallsBack = true)
    (names : List PosixPath.Text)
    (hdisk : facade.disk (facade.rootNames ++ names ++ [name]) = some NodeKind.file)
    (hdot : '.' ∉ name) : facade.cached name = false := by
  have hall := hdisk
  rw [List.append_assoc] at hall
  rcases disk_named hall with ⟨hplain, hbare⟩
  have hname : PosixPath.Plain name :=
    hplain name (List.mem_append_right _ (List.mem_singleton.mpr rfl))
  rw [PosixPath.text_append] at hbare
  have hnameBare : sep ∉ name := fun hmem => hbare (List.mem_append_right _
    (List.mem_cons_of_mem _ (List.mem_append_left _ hmem)))
  rcases dotted_key (fun n hn => hplain n (List.mem_append_left _ hn))
    (fun hmem => hbare (List.mem_append_left _ hmem)) with ⟨hkey, hentered⟩
  -- A key that ends in a dot name sees the disk alone.
  have hsource : forall k, facade.place.files.hasSource k = true ->
      ¬ (k = PosixPath.text names ++ slash :: PosixPath.dot ∨
        Above slash (PosixPath.text names ++ slash :: PosixPath.dot) k) :=
    fun k hk hor => not_above_dotted hsound hk hor
  have hparent := disk_parent hdisk
  rw [← hentered] at hparent hdisk
  have hinside : facade.rootNames <+: facade.entered
      (PosixPath.text names ++ slash :: PosixPath.dot) := by
    rw [hentered]
    exact List.prefix_append _ _
  have haccepts : facade.Accepts (PosixPath.text names ++ slash :: PosixPath.dot) := by
    constructor
    · intro _
      apply (file_none_iff hkey).mpr
      constructor
      · intro hshows
        exact hsource _ hshows.1 (Or.inl rfl)
      · intro hfile
        have hpresent := hfile.present
        rw [hparent] at hpresent
        cases hpresent
    · exact Or.inl ⟨hfalls, hinside, hparent⟩
  rcases exists_readdir hsound hkey.directoryKey haccepts false with ⟨listed, hlisted⟩
  have hagree := h.names _ listed hkey.directoryKey hlisted name hname hnameBare
  rw [(readdir_spec hsound hkey.directoryKey hlisted).2.2 name] at hagree
  have hfound : facade.DiskFile
      ((PosixPath.text names ++ slash :: PosixPath.dot) ++ slash :: name) := by
    rw [← entered_name hname facade.toFacade] at hdisk
    refine ⟨hfalls, ?_, hdisk, cached_undotted hfalls hdot _⟩
    rw [entered_name hname]
    exact hinside.trans (List.prefix_append _ _)
  rcases hagree.mpr ((exists_iff (hkey.directoryKey.named hname hnameBare)).mpr
    (Or.inl (Or.inr hfound))) with ⟨_, directory, hlists⟩
  cases hlists with
  | directory hindex =>
      rcases (PlaceFiles.hasDirectory_iff hsound.indexed _).mp hindex with ⟨k, hk, habove⟩
      have hbelow : Above slash (PosixPath.text names ++ slash :: PosixPath.dot)
        ((PosixPath.text names ++ slash :: PosixPath.dot) ++ slash :: name) := ⟨name, rfl⟩
      exact absurd (Or.inr (hbelow.trans habove)) (hsource k hk)
  | file hshows =>
      exact absurd (Or.inr ⟨name, rfl⟩) (hsource _ hshows.1)
  | disk _ _ hlists =>
      rcases hlists.at_name hname.2.2.2 with ⟨_, _, hpresent⟩
      rw [entered_name hname, hdisk] at hpresent
      apply hlists.kept
      cases directory with
      | true => cases hpresent
      | false => rfl

/-- The directory above a published file or directory. -/
theorem accepts_parent {names : List PosixPath.Text}
    (hplain : forall n, n ∈ names ++ [name] -> PosixPath.Plain n)
    (hbare : sep ∉ PosixPath.text (names ++ [name]))
    (hheld : facade.place.files.hasDirectory (PosixPath.text (names ++ [name])) = true ∨
      facade.place.files.hasSource (PosixPath.text (names ++ [name])) = true)
    (hdisk : facade.disk (facade.rootNames ++ names) = some NodeKind.directory) :
    DirectoryKey (PosixPath.text names) ∧ facade.Accepts (PosixPath.text names) := by
  have hnames : forall n, n ∈ names -> PosixPath.Plain n :=
    fun n hn => hplain n (List.mem_append_left _ hn)
  have htext : PosixPath.text (names ++ [name]) = PosixPath.text names ++ slash :: name := by
    rw [PosixPath.text_append]
    show _ ++ (slash :: name ++ []) = _
    rw [List.append_nil]
  have hbareNames : sep ∉ PosixPath.text names := by
    intro hmem
    rw [htext] at hbare
    exact hbare (List.mem_append_left _ hmem)
  have habove : Above slash (PosixPath.text names) (PosixPath.text (names ++ [name])) :=
    ⟨name, htext⟩
  have hindex : facade.place.files.hasDirectory (PosixPath.text names) = true := by
    rw [PlaceFiles.hasDirectory_iff hsound.indexed]
    rcases hheld with hdir | hsource
    · rcases (PlaceFiles.hasDirectory_iff hsound.indexed _).mp hdir with ⟨k, hk, hbelow⟩
      exact ⟨k, hk, habove.trans hbelow⟩
    · exact ⟨_, hsource, habove⟩
  have hfree : PosixPath.text names ≠ [] -> Named (PosixPath.text names) := by
    intro hnil
    constructor
    · cases names with
      | nil => exact absurd rfl hnil
      | cons first rest =>
          exact ⟨⟨first ++ PosixPath.text rest, rfl⟩,
            PosixPath.getLast_text (List.cons_ne_nil _ _) hnames⟩
    · exact hbareNames
  constructor
  · by_cases hnil : PosixPath.text names = []
    · rw [hnil]
      exact ⟨rfl, List.not_mem_nil⟩
    · exact (hfree hnil).directoryKey
  · constructor
    · intro hnil
      apply (file_none_iff (hfree hnil)).mpr
      constructor
      · intro hshows
        have hnot := hsound.not_source hindex
        rw [hshows.1] at hnot
        cases hnot
      · intro hfile
        have hpresent := hfile.present
        rw [entered_text hnames, hdisk] at hpresent
        cases hpresent
    · exact Or.inr (Or.inr hindex)

theorem Agrees.apart (h : facade.Agrees) (hfalls : facade.fallsBack = true)
    (hindex : facade.place.files.hasDirectory key = true)
    (hdisk : facade.disk (facade.entered key) = some NodeKind.file) :
    facade.cached key = true := by
  rcases hsound.directoryKey hindex with ⟨hbare, names, hplain, htext⟩
  rw [htext] at hindex hdisk hbare ⊢
  rw [entered_text hplain] at hdisk
  rcases List.eq_nil_or_concat names with hnil | ⟨above, name, hnames⟩
  · rw [hnil, List.append_nil] at hdisk
    exact absurd hdisk facade.directory
  · rw [List.concat_eq_append] at hnames
    rw [hnames] at hindex hdisk hplain hbare ⊢
    have hname := hplain name (List.mem_append_right _ (List.mem_singleton.mpr rfl))
    have hlong := hdisk
    rw [← List.append_assoc] at hlong
    rcases accepts_parent hsound hplain hbare (Or.inl hindex) (disk_parent hlong) with
      ⟨hdir, haccepts⟩
    have htextName : PosixPath.text (above ++ [name]) = PosixPath.text above ++ slash :: name := by
      rw [PosixPath.text_append]
      show _ ++ (slash :: name ++ []) = _
      rw [List.append_nil]
    have hnameBare : sep ∉ name := by
      intro hmem
      apply hbare
      rw [htextName]
      exact List.mem_append_right _ (List.mem_cons_of_mem _ hmem)
    rcases exists_readdirTypes hsound hdir haccepts with ⟨dirents, hdirents⟩
    rw [htextName] at hindex ⊢
    rcases (readdirTypes_spec hsound hdir hdirents).2.2 name true hname.2.2.2
      (Lists.directory hindex) with ⟨entry, hmem, hentry, hdirectory⟩
    have hkind := h.kinds _ dirents hdir hdirents entry hmem
    rw [hentry, hdirectory] at hkind
    by_contra hraw
    have hinside : facade.rootNames <+: facade.rootNames ++ (above ++ [name]) :=
      List.prefix_append _ _
    rw [← entered_text hplain facade.toFacade, htextName] at hdisk hinside
    rw [stat_file (hdir.named hname hnameBare)
      (Or.inr ⟨hfalls, hinside, hdisk, Bool.eq_false_iff.mpr hraw⟩)] at hkind
    cases hkind

theorem Agrees.unburied (h : facade.Agrees) (hfalls : facade.fallsBack = true)
    (hshows : facade.Shows key) {kind : NodeKind}
    (hdisk : facade.disk (facade.entered key ++ [name]) = some kind) :
    kind = NodeKind.file ∧ facade.cached (key ++ slash :: name) = true := by
  rcases hsound.canonical key hshows.1 with ⟨hbare, names, hne, hplain, htext⟩
  rcases List.eq_nil_or_concat names with hnil | ⟨above, last, hnames⟩
  · exact absurd hnil hne
  · rw [List.concat_eq_append] at hnames
    rw [hnames] at htext hplain
    have hentered : facade.entered key = facade.rootNames ++ above ++ [last] := by
      rw [htext, entered_text hplain, List.append_assoc]
    have hparent := disk_parent hdisk
    rw [hentered] at hparent
    rw [htext] at hbare
    have hsource := hshows.1
    rw [htext] at hsource
    rcases accepts_parent hsound hplain hbare (Or.inr hsource) (disk_parent hparent) with
      ⟨hdir, haccepts⟩
    have hlast := hplain last (List.mem_append_right _ (List.mem_singleton.mpr rfl))
    have htextName : key = PosixPath.text above ++ slash :: last := by
      rw [htext, PosixPath.text_append]
      show _ ++ (slash :: last ++ []) = _
      rw [List.append_nil]
    have hlong := hdisk
    rw [hentered, List.append_assoc, List.append_assoc] at hlong
    have hname := (disk_named hlong).1 name (List.mem_append_right _
      (List.mem_append_right _ (List.mem_singleton.mpr rfl)))
    by_contra hnot
    -- The recursive listing holds what the shown file would hide.
    have hlists : exists directory,
        facade.Lists (PosixPath.text above) (last ++ slash :: name) directory := by
      have hkey : PosixPath.text above ++ slash :: (last ++ slash :: name) =
          key ++ slash :: name := by
        rw [htextName, List.append_assoc, List.cons_append]
      have hbelow : Above slash key (key ++ slash :: name) := ⟨name, rfl⟩
      have hindex : facade.place.files.hasDirectory (key ++ slash :: name) = false := by
        apply Bool.eq_false_iff.mpr
        intro hindex
        rcases (PlaceFiles.hasDirectory_iff hsound.indexed _).mp hindex with ⟨k, hk, habove⟩
        exact hsound.apart key k hshows.1 hk (hbelow.trans habove)
      have hunshown : ¬ facade.Shows (key ++ slash :: name) := fun hshown =>
        hsound.apart key _ hshows.1 hshown.1 hbelow
      have hpair : forall n, n ∈ [last, name] -> PosixPath.Plain n := by
        intro n hn
        rcases List.mem_cons.mp hn with heq | hrest
        · rw [heq]
          exact hlast
        · rw [List.mem_singleton.mp hrest]
          exact hname
      have hjoined : last ++ slash :: name = PosixPath.joined [last, name] := by
        show _ = last ++ (slash :: name ++ [])
        rw [List.append_nil]
      have hpresent : facade.disk (facade.entered (PosixPath.text above) ++ [last, name]) =
          some kind := by
        rw [entered_text (fun n hn => hplain n (List.mem_append_left _ hn))]
        rw [← List.append_assoc] at hlong
        exact hlong
      have hinside : facade.rootNames <+: facade.entered (PosixPath.text above) := by
        rw [entered_text (fun n hn => hplain n (List.mem_append_left _ hn))]
        exact List.prefix_append _ _
      rw [← hkey] at hindex hunshown
      cases kind with
      | directory =>
          exact ⟨true, Lists.disk hindex hunshown ⟨hfalls, hinside,
            ⟨[last, name], List.cons_ne_nil _ _, hpair, hjoined, hpresent⟩,
            fun hfalse => by cases hfalse⟩⟩
      | file =>
          have hraw : facade.cached (last ++ slash :: name) = false := by
            rw [cached_nameExt facade last key]
            exact Bool.eq_false_iff.mpr (fun hcached => hnot ⟨rfl, hcached⟩)
          exact ⟨false, Lists.disk hindex hunshown ⟨hfalls, hinside,
            ⟨[last, name], List.cons_ne_nil _ _, hpair, hjoined, hpresent⟩, fun _ => hraw⟩⟩
    rcases exists_readdir hsound hdir haccepts true with ⟨paths, hpaths⟩
    have hmem := ((readdir_spec hsound hdir hpaths).2.2 (last ++ slash :: name)).mpr
      ⟨(fun hfalse => by cases hfalse), hlists⟩
    have hreached := ((h.recursive _ paths hdir hpaths).2 _).mp hmem
    generalize hrel : last ++ slash :: name = rel at hreached
    cases hreached with
    | here hdirents hentry =>
        have hslash := ((readdirTypes_spec hsound hdir hdirents).2.1 _ hentry).1
        rw [← hrel] at hslash
        exact hslash (List.mem_append_right _ List.mem_cons_self)
    | deeper hdirents hentry hdirectory _ =>
        rcases (readdirTypes_spec hsound hdir hdirents).2.1 _ hentry with ⟨hslash, hfirst⟩
        have hsame := congrArg PosixPath.split hrel
        rw [show last ++ slash :: name = last ++ PosixPath.separator :: name from rfl,
          PosixPath.split_append hlast.2.2.2] at hsame
        have hsplit := PosixPath.split_append hslash
        rw [show PosixPath.separator = slash from rfl] at hsplit
        rw [hsplit] at hsame
        rw [← (List.cons.inj hsame).1, hdirectory] at hfirst
        cases hfirst with
        | directory hindex =>
            rw [← htextName] at hindex
            have hnotSource := hsound.not_source hindex
            rw [hshows.1] at hnotSource
            cases hnotSource
        | disk _ hunshown _ =>
            rw [← htextName] at hunshown
            exact hunshown hshows

end Step

def demoTree : Node Unit :=
  Node.directory [(['a', 'p', 'p'], Node.directory [(['s', 'i', 't', 'e'], Node.directory
    [(['a', '.', 'h', 't', 'm', 'l'], Node.file ()), (['h', 't', 'm', 'l'], Node.file ())])])]

def demoKey : Key := ['/', 'a', '.', 'h', 't', 'm', 'l']

def demoFiles : PlaceFiles Version :=
  PlaceFiles.empty.set (EntryKey.ofSource demoKey)
    { data := some [1], stat := { size := 1, mtimeMs := 0 } }

theorem demo_source (h : demoFiles.hasSource key = true) : key = demoKey := by
  rcases (PlaceFiles.hasSource_set _ _ _ _).mp h with heq | hempty
  · exact PlaceFiles.ofSource_inj.mp heq
  · cases hempty

theorem demo_sound : Sound demoFiles := by
  constructor
  · exact PlaceFiles.set_indexed PlaceFiles.empty_indexed _ _ ⟨demoKey.tail, rfl⟩
  · intro a b ha hb habove
    rw [demo_source ha, demo_source hb] at habove
    exact Above.irrefl habove
  · intro key hkey
    rw [demo_source hkey]
    exact ⟨by decide, [demoKey.tail], List.cons_ne_nil _ _, by decide, rfl⟩

theorem demo_entries : forall entry, entry ∈ demoTree.beneath ->
    sep ∉ PosixPath.text entry.1 ∧ (entry.2.isDirectory = true ∨ entry.2.isFile = true) := by
  decide +kernel

theorem demo_get {loc : Loc} {node : Node Unit} (h : demoTree.get loc = some node) :
    sep ∉ PosixPath.text loc ∧ (node.isDirectory = true ∨ node.isFile = true) := by
  by_cases hnil : loc = []
  · rw [hnil] at h ⊢
    rw [← Option.some.inj h]
    exact ⟨List.not_mem_nil, Or.inl rfl⟩
  · exact demo_entries (loc, node) ((Node.mem_beneath (by decide) loc node).mpr ⟨hnil, h⟩)

def demoListed : ListedFacade Unit :=
  { place := { Facade.demoPlace with files := demoFiles }
    appRoot := [['a', 'p', 'p']]
    disk := fun loc => (demoTree.get loc).map (fun node =>
      if node.isDirectory then NodeKind.directory else NodeKind.file)
    plain := by decide +kernel
    exts := fun list hlist => by
      rw [← Option.some.inj hlist]
      decide
    finite := fun _ hnone => by cases hnone
    rooted := PlaceFiles.set_rooted PlaceFiles.empty_rooted _ _ ⟨demoKey.tail, rfl⟩
    directory := by decide +kernel
    clean := by decide +kernel
    tree := demoTree
    proper := by decide +kernel
    regular := fun _ _ h => (demo_get h).2
    named := fun _ _ h => (demo_get h).1
    view := fun _ => rfl }

end ListedFacade

end SharedMemoryFs
