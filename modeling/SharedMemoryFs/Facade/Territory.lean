import SharedMemoryFs.Facade.Lookup

/-!
# The disk territory of a place

A key names a file of the disk territory by where its text leads.  Unless the key ends
in a dot name, its last name is also that of the file, and the filter reads the
extension of the file that is opened.
-/

namespace SharedMemoryFs

open Foundation

namespace Facade

variable {facade : Facade} {key : Key} {path : FilePath}

/-- Where a key leads from the directory of the place. -/
def entered (facade : Facade) (key : Key) : List PosixPath.Text :=
  (PosixPath.split key).foldl PosixPath.enter facade.rootNames

theorem rootNames_ne_nil (facade : Facade) : facade.rootNames ≠ [] :=
  List.append_ne_nil_of_right_ne_nil _ (List.cons_ne_nil _ _)

theorem rootNames_plain (facade : Facade) :
    forall name, name ∈ facade.rootNames -> PosixPath.Plain name := facade.plain

theorem entered_plain (facade : Facade) (key : Key) :
    forall name, name ∈ facade.entered key -> PosixPath.Plain name :=
  PosixPath.foldl_enter_keeps (fun _ hname => PosixPath.split_separator hname) facade.plain

/-- A key stays inside when it leads to or below the directory of the place. -/
theorem within_eq (facade : Facade) (key : Key) :
    facade.within key =
      if facade.rootNames <+: facade.entered key then
        some (PosixPath.text (facade.entered key) ++ PosixPath.trailing key)
      else none := by
  have hroot : PosixPath.resolve [] facade.root = facade.rootNames :=
    PosixPath.resolve_text facade.rootNames_plain facade.rootNames_ne_nil []
  have hjoin : PosixPath.join facade.root key =
      if facade.entered key = [] then [PosixPath.separator]
      else PosixPath.text (facade.entered key) ++ PosixPath.trailing key :=
    PosixPath.join_text facade.rootNames_plain facade.rootNames_ne_nil key
  have habs : PosixPath.resolve [] (PosixPath.join facade.root key) = facade.entered key := by
    rw [hjoin]
    by_cases hnil : facade.entered key = []
    · rw [if_pos hnil, hnil]
      rfl
    · rw [if_neg hnil]
      exact PosixPath.resolve_trailing (facade.entered_plain key) hnil [] key
  have hout : PosixPath.outside (PosixPath.relativeText [] facade.root
      (PosixPath.join facade.root key)) = true <-> ¬ facade.rootNames <+: facade.entered key := by
    unfold PosixPath.relativeText
    rw [hroot, habs,
      PosixPath.outside_text facade.rootNames_plain (facade.entered_plain key)]
    exact PosixPath.outside_relative (facade.entered_plain key)
  unfold within
  dsimp only
  by_cases hbelow : facade.rootNames <+: facade.entered key
  · have hne : facade.entered key ≠ [] := by
      intro hnil
      rw [hnil] at hbelow
      exact facade.rootNames_ne_nil (List.prefix_nil.mp hbelow)
    rw [if_neg (fun h => hout.mp h hbelow), if_pos hbelow, hjoin, if_neg hne]
  · rw [if_pos (hout.mpr hbelow), if_neg hbelow]

/-- The path of a key inside the place holds a NUL only where the key does. -/
theorem sep_not_mem_within (hkey : sep ∉ key)
    (h : facade.within key = some path) : sep ∉ path := by
  rw [within_eq] at h
  split_ifs at h
  rw [← Option.some.inj h]
  intro hmem
  rcases List.mem_append.mp hmem with hnames | htrailing
  · rcases PosixPath.mem_text hnames with hsep | ⟨name, hname, hc⟩
    · exact absurd hsep (by decide)
    · rcases PosixPath.mem_foldl_enter hname with hroot | hsplit
      · exact facade.clean (List.mem_flatMap.mpr ⟨name, hroot, List.mem_cons_of_mem _ hc⟩)
      · exact hkey (PosixPath.mem_of_mem_split hsplit hc)
  · unfold PosixPath.trailing at htrailing
    split_ifs at htrailing
    · exact absurd (List.mem_singleton.mp htrailing) (by decide)
    · cases htrailing

/-- What {lit}`statSync` says of a path inside the place. -/
theorem statSync_within (hkey : sep ∉ key)
    (h : facade.within key = some path) :
    facade.statSync path = (facade.disk (facade.entered key)).bind (fun kind =>
      if kind = NodeKind.file ∧ key.getLast? = some PosixPath.separator then none
      else some kind) := by
  have hsep := sep_not_mem_within hkey h
  rw [within_eq] at h
  split_ifs at h with hbelow
  have hne : facade.entered key ≠ [] := by
    intro hnil
    rw [hnil] at hbelow
    exact facade.rootNames_ne_nil (List.prefix_nil.mp hbelow)
  have hlast : path.getLast? = some PosixPath.separator <->
      key.getLast? = some PosixPath.separator := by
    rw [← Option.some.inj h]
    unfold PosixPath.trailing
    by_cases hend : key.getLast? = some PosixPath.separator
    · rw [if_pos hend, List.getLast?_append_of_ne_nil _ (List.cons_ne_nil _ _)]
      exact ⟨fun _ => hend, fun _ => rfl⟩
    · rw [if_neg hend, List.append_nil]
      exact ⟨fun hl => absurd hl (PosixPath.getLast_text hne (facade.entered_plain key)),
        fun hl => absurd hl hend⟩
  unfold statSync
  rw [if_neg hsep, ← Option.some.inj h,
    PosixPath.resolve_trailing (facade.entered_plain key) hne [] key, Option.some.inj h]
  simp only [hlast]

/-!
# Keys with a leading slash
-/

theorem keyOf_eq (facade : Facade) (key : Key) :
    facade.keyOf key = if key.head? = some slash then key else slash :: key := by
  unfold keyOf
  by_cases hhead : key.head? = some slash
  · rw [if_pos (Or.inr hhead), if_pos hhead]
  · have hnone : ¬ facade.place.files.has (EntryKey.ofSource key) = true := by
      intro hhas
      rcases facade.rooted key hhas with ⟨rest, hrest⟩
      rw [hrest] at hhead
      exact hhead rfl
    rw [if_neg (fun hor => hor.elim hnone hhead), if_neg hhead]

theorem keyOf_head (facade : Facade) (key : Key) :
    exists rest, facade.keyOf key = slash :: rest := by
  rw [keyOf_eq]
  by_cases hhead : key.head? = some slash
  · rw [if_pos hhead]
    exact List.head?_eq_some_iff.mp hhead
  · rw [if_neg hhead]
    exact ⟨key, rfl⟩

theorem sep_mem_keyOf : sep ∈ facade.keyOf key <-> sep ∈ key := by
  rw [keyOf_eq]
  by_cases hhead : key.head? = some slash
  · rw [if_pos hhead]
  · rw [if_neg hhead, List.mem_cons]
    exact or_iff_right (by decide)

theorem entered_keyOf (facade : Facade) (key : Key) :
    facade.entered (facade.keyOf key) = facade.entered key := by
  rw [keyOf_eq]
  by_cases hhead : key.head? = some slash
  · rw [if_pos hhead]
  · rw [if_neg hhead]
    unfold entered
    rw [show PosixPath.split (slash :: key) = [] :: PosixPath.split key from if_pos rfl]
    rfl

theorem afterLast_keyOf (facade : Facade) (key : Key) :
    afterLast slash (facade.keyOf key) = afterLast slash key := by
  rw [keyOf_eq]
  by_cases hhead : key.head? = some slash
  · rw [if_pos hhead]
  · rw [if_neg hhead]
    by_cases hmem : slash ∈ key
    · exact afterLast_append hmem [slash]
    · have hself : afterLast slash key = key := by
        have happend := afterLast_of_not_mem hmem []
        exact happend
      rw [hself]
      exact afterLast_cons hmem []

/-!
# What the disk territory serves
-/

/-- {lit}`isFile` of the path of a key. -/
theorem statSync_file (hkey : sep ∉ key) (h : facade.within key = some path) :
    facade.statSync path = some NodeKind.file <->
      facade.disk (facade.entered key) = some NodeKind.file ∧
        key.getLast? ≠ some PosixPath.separator := by
  rw [statSync_within hkey h]
  constructor
  · intro hstat
    rcases Option.bind_eq_some_iff.mp hstat with ⟨kind, hdisk, hkind⟩
    split_ifs at hkind with hslash
    have heq : kind = NodeKind.file := Option.some.inj hkind
    rw [heq] at hdisk
    exact ⟨hdisk, fun hend => hslash ⟨heq, hend⟩⟩
  · intro hfile
    rw [hfile.1, Option.bind_some, if_neg (fun hand => hfile.2 hand.2)]

theorem diskFile_iff : facade.diskFile key = some path <->
    facade.fallsBack = true ∧ sep ∉ key ∧ facade.cached (facade.keyOf key) = false ∧
      facade.rootNames <+: facade.entered key ∧
      facade.disk (facade.entered key) = some NodeKind.file ∧
      (facade.keyOf key).getLast? ≠ some PosixPath.separator ∧
      path = PosixPath.text (facade.entered key) := by
  have hwithin := facade.within_eq (facade.keyOf key)
  rw [entered_keyOf] at hwithin
  unfold diskFile diskStat
  dsimp only
  constructor
  · intro h
    split_ifs at h with hfalls hskip hstat
    have hsep : sep ∉ key := fun hmem => hskip (Or.inl (sep_mem_keyOf.mpr hmem))
    have hcached : facade.cached (facade.keyOf key) = false :=
      Bool.eq_false_iff.mpr (fun hyes => hskip (Or.inr hyes))
    rw [h, Option.bind_some,
      statSync_file (fun hmem => hsep (sep_mem_keyOf.mp hmem)) h, entered_keyOf] at hstat
    rw [h] at hwithin
    split_ifs at hwithin with hbelow
    have hpath := Option.some.inj hwithin
    unfold PosixPath.trailing at hpath
    rw [if_neg hstat.2, List.append_nil] at hpath
    exact ⟨hfalls, hsep, hcached, hbelow, hstat.1, hstat.2, hpath⟩
  · intro ⟨hfalls, hsep, hcached, hbelow, hdisk, hend, hpath⟩
    rw [if_pos hbelow] at hwithin
    have hstat := statSync_file (fun hmem => hsep (sep_mem_keyOf.mp hmem)) hwithin
    rw [entered_keyOf] at hstat
    have hskip : ¬ (sep ∈ facade.keyOf key ∨ facade.cached (facade.keyOf key) = true) := by
      rintro (hmem | hyes)
      · exact hsep (sep_mem_keyOf.mp hmem)
      · rw [hcached] at hyes
        cases hyes
    rw [if_pos hfalls, if_neg hskip, if_pos hfalls, hwithin, Option.bind_some,
      if_pos (hstat.mpr ⟨hdisk, hend⟩), hpath]
    unfold PosixPath.trailing
    rw [if_neg hend, List.append_nil]

/-!
# The last name of a key
-/

/-- The extension filter sees a name that the path leaves out. -/
def Dotted (key : Key) : Prop :=
  afterLast slash key = PosixPath.dot ∨ afterLast slash key = PosixPath.up

instance (key : Key) : Decidable (Dotted key) := inferInstanceAs (Decidable (_ ∨ _))

/-- The place caches no key that ends in a dot name. -/
theorem cached_dotted (hfalls : facade.fallsBack = true) (h : Dotted key) :
    facade.cached (facade.keyOf key) = false := by
  rcases facade.keyOf_head key with ⟨rest, hrest⟩
  rcases exists_afterLast (hrest ▸ List.mem_cons_self : slash ∈ facade.keyOf key)
    with ⟨dir, hdir, _⟩
  rw [afterLast_keyOf] at hdir
  have hempty : Metautil.fileExt (facade.keyOf key) = "" := by
    rw [hdir]
    exact fileExt_dots h
  cases hlist : facade.place.scanExt with
  | none => exact absurd hlist (facade.finite (beq_iff_eq.mp hfalls))
  | some list =>
      unfold cached RoutedPlace.cached
      rw [hlist, hempty]
      exact Bool.eq_false_iff.mpr
        (fun hmem => facade.exts list hlist (List.contains_iff_mem.mp hmem))

/-- Any other key leads to a path that ends in its last name. -/
theorem cached_entered (h : ¬ Dotted key)
    (hend : (facade.keyOf key).getLast? ≠ some PosixPath.separator) :
    facade.cached (facade.keyOf key) = facade.cached (PosixPath.text (facade.entered key)) := by
  rcases facade.keyOf_head key with ⟨rest, hrest⟩
  rcases exists_afterLast (hrest ▸ List.mem_cons_self : slash ∈ facade.keyOf key)
    with ⟨dir, hdir, hname⟩
  rw [afterLast_keyOf] at hdir hname
  have hne : afterLast slash key ≠ [] := by
    intro hnil
    rw [hnil] at hdir
    rw [hdir] at hend
    exact hend (List.getLast?_append_of_ne_nil _ (List.cons_ne_nil _ _))
  have hentered : facade.entered key =
      (PosixPath.split dir).foldl PosixPath.enter facade.rootNames ++ [afterLast slash key] := by
    rw [← entered_keyOf]
    unfold entered
    have hsplit : PosixPath.split (facade.keyOf key) =
        PosixPath.split dir ++ [afterLast slash key] := by
      rw [hdir, ← PosixPath.split_plain hname]
      exact PosixPath.split_append_separator dir _
    rw [hsplit, List.foldl_append]
    show PosixPath.enter _ (afterLast slash key) = _
    unfold PosixPath.enter
    rw [if_neg (fun hor => hor.elim hne (fun hdot => h (Or.inl hdot))),
      if_neg (fun hup => h (Or.inr hup))]
  have htext : PosixPath.text (facade.entered key) =
      PosixPath.text ((PosixPath.split dir).foldl PosixPath.enter facade.rootNames) ++
        slash :: afterLast slash key := by
    rw [hentered, PosixPath.text_append]
    show _ ++ (PosixPath.separator :: afterLast slash key ++ []) = _
    rw [List.append_nil]
    rfl
  unfold cached RoutedPlace.cached
  rw [htext, hdir, fileExt_nameExt dir _ (afterLast slash key)]

/-!
# Keys that stay in the territory
-/

/-- A file that the key reads from disk lies under the place and has an extension that
the place does not cache. -/
def Confined (facade : Facade) (key : Key) : Prop :=
  forall path, facade.file key = some (Found.disk path) ->
    (exists names : List PosixPath.Text, names ≠ [] ∧
      (forall name, name ∈ names -> PosixPath.Plain name) ∧
      path = PosixPath.text (facade.rootNames ++ names)) ∧
    facade.cached path = false

/-- The key ends in a dot name and leads to a file of a cached extension, which nothing
published hides. -/
structure Exposes (facade : Facade) (key : Key) : Prop where
  falls : facade.fallsBack = true
  dotted : Dotted key
  bare : sep ∉ key
  unshown : facade.shown key = none
  inside : facade.rootNames <+: facade.entered key
  present : facade.disk (facade.entered key) = some NodeKind.file
  raw : facade.cached (PosixPath.text (facade.entered key)) = true

theorem file_disk_iff : facade.file key = some (Found.disk path) <->
    facade.shown key = none ∧ facade.diskFile key = some path := by
  unfold file
  cases facade.shown key with
  | some version =>
      constructor
      · intro h
        cases h
      · intro h
        cases h.1
  | none =>
      constructor
      · intro h
        rcases Option.map_eq_some_iff.mp h with ⟨found, hfound, heq⟩
        rw [← Found.disk.inj heq]
        exact ⟨rfl, hfound⟩
      · intro h
        show (facade.diskFile key).map Found.disk = _
        rw [h.2]
        rfl

/-- A dotted key ends in no slash. -/
theorem dotted_getLast (h : Dotted key) :
    (facade.keyOf key).getLast? ≠ some PosixPath.separator := by
  rcases facade.keyOf_head key with ⟨rest, hrest⟩
  rcases exists_afterLast (hrest ▸ List.mem_cons_self : slash ∈ facade.keyOf key)
    with ⟨dir, hdir, hname⟩
  rw [afterLast_keyOf] at hdir hname
  intro hlast
  rw [hdir, List.getLast?_append_of_ne_nil _ (List.cons_ne_nil _ _)] at hlast
  rcases h with heq | heq
  · rw [heq] at hlast
    exact absurd hlast (by decide)
  · rw [heq] at hlast
    exact absurd hlast (by decide)

/-- The files a key opens lie below the directory of the place. -/
theorem names_below (hbelow : facade.rootNames <+: facade.entered key)
    (hdisk : facade.disk (facade.entered key) = some NodeKind.file) :
    exists names : List PosixPath.Text, names ≠ [] ∧
      (forall name, name ∈ names -> PosixPath.Plain name) ∧
      facade.entered key = facade.rootNames ++ names := by
  rcases hbelow with ⟨names, hnames⟩
  have hne : names ≠ [] := by
    intro hnil
    rw [← hnames, hnil, List.append_nil] at hdisk
    exact facade.directory hdisk
  exact ⟨names, hne, fun name hname => facade.entered_plain key name
    (hnames ▸ List.mem_append_right _ hname), hnames.symm⟩

def demoPlace : RoutedPlace :=
  { config :=
      { name := "site"
        maxFileSize := 64
        require := none
        fs := some { ext := none, script := none, compress := none }
        prepare := [] }
    provider := Provider.sab
    origin := some Origin.disk
    writable := false
    fallback := some Fallback.disk
    scanExt := some ["html"]
    files := PlaceFiles.empty
    sync := true
    originated := disk_originated Provider.sab }

def demoFacade : Facade :=
  { place := demoPlace
    appRoot := [['a', 'p', 'p']]
    disk := fun names =>
      if names = [['a', 'p', 'p'], ['s', 'i', 't', 'e'], ['a', '.', 'h', 't', 'm', 'l']]
      then some NodeKind.file
      else none
    plain := by decide +kernel
    exts := fun list hlist => by
      rw [← Option.some.inj hlist]
      decide
    finite := fun _ hnone => by cases hnone
    rooted := PlaceFiles.empty_rooted
    directory := by decide +kernel
    clean := by decide +kernel }

end Facade

end SharedMemoryFs
