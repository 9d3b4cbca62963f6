import SharedMemoryFs.Foundation.FileTree
import SharedMemoryFs.Facade.Territory

/-!
# Listings of the facade

A listing merges what the directory index holds into what the disk holds, with
{lit}`fs.fallback: 'disk'`.  The disk is a tree of directories and regular files;
{lit}`listing_spec` says which names it lists and as what.
-/

namespace SharedMemoryFs

open Foundation

/-- The code units of UTF-16, in which strings are compared. -/
def codeUnits (c : Char) : List Nat :=
  if c.toNat < 0x10000 then [c.toNat]
  else [0xD800 + (c.toNat - 0x10000) / 0x400, 0xDC00 + (c.toNat - 0x10000) % 0x400]

def textOrder (a b : Key) : Bool := decide (a.flatMap codeUnits ≤ b.flatMap codeUnits)

/-- {lit}`sort`. -/
def sorted (names : List Key) : List Key := names.mergeSort textOrder

structure VfsDirent where
  name : Key
  parent : FilePath
  directory : Bool
deriving DecidableEq

/-- A facade over a tree of directories and regular files.  No name of a file system
holds a NUL. -/
structure ListedFacade (beta : Type) extends Facade where
  tree : Node beta
  proper : tree.proper = true
  regular : forall loc node, tree.get loc = some node ->
    node.isDirectory = true ∨ node.isFile = true
  named : forall loc node, tree.get loc = some node -> sep ∉ PosixPath.text loc
  view : forall loc, disk loc = (tree.get loc).map (fun node =>
    if node.isDirectory then NodeKind.directory else NodeKind.file)

namespace ListedFacade

variable {beta : Type} (facade : ListedFacade beta)

/-- {lit}`Place.pathOf`. -/
def pathOf (key : Key) : FilePath :=
  if key = [] ∨ key = [slash] then facade.root else PosixPath.join facade.root key

def entriesOf (recursive : Bool) : Node beta -> Option (List (Loc × Node beta))
  | Node.directory entries =>
      if recursive then some (Node.directory entries).beneath
      else some (entries.map (fun entry => ([entry.1], entry.2)))
  | _ => none

/-- {lit}`readdirSync`, none where it throws. -/
def readdirSync (path : FilePath) (recursive : Bool) : Option (List (Loc × Node beta)) :=
  if sep ∈ path then none
  else (facade.tree.get (PosixPath.resolve [] path)).bind (entriesOf recursive)

/-- What a disk entry is listed as. -/
def diskEntry (entry : Loc × Node beta) : Option (Key × Bool) :=
  let rel := PosixPath.joined entry.1
  if entry.2.isDirectory then some (rel, true)
  else if entry.2.isFile && !facade.cached rel then some (rel, false)
  else none

def setAll (names : OrderedMap Key Bool) (entries : List (Key × Bool)) : OrderedMap Key Bool :=
  entries.foldl (fun names entry => names.set entry.1 entry.2) names

/-- {lit}`#diskEntries`, none when the directory is not on disk. -/
def diskEntries (dir : Key) (names : OrderedMap Key Bool) (recursive : Bool) :
    Option (OrderedMap Key Bool) :=
  if facade.fallsBack then
    ((facade.within (if dir = [] then [slash] else dir)).bind (fun base =>
      facade.readdirSync base recursive)).map (fun entries =>
        setAll names (entries.filterMap facade.diskEntry))
  else none

/-- What the directory index adds to a listing, by relative name. -/
def indexed (dir : Key) (recursive : Bool) : List (Key × Bool) :=
  let files := facade.place.files
  let found := if recursive then files.below dir else files.children dir
  (found.filter (fun child => child.2 || facade.visible child.1)).map (fun child =>
    (child.1.drop (dir.length + 1), child.2))

def refuses (code : ErrorCode) (dir : Key) : FsError :=
  { code := code, syscall := Syscall.scandir, path := String.ofList (facade.pathOf dir) }

/-- The names {lit}`readdir` collects, each with whether it is a directory. -/
def listing (key : Key) (recursive : Bool) : Except FsError (OrderedMap Key Bool) :=
  let dir := PlaceFiles.dirOf key
  if dir ≠ [] ∧ (facade.file dir).isSome then
    Except.error (facade.refuses ErrorCode.enotdir dir)
  else
    match facade.diskEntries dir OrderedMap.empty recursive with
    | some names => Except.ok (setAll names (facade.indexed dir recursive))
    | none =>
        if facade.place.files.isDirectory dir then
          Except.ok (setAll OrderedMap.empty (facade.indexed dir recursive))
        else Except.error (facade.refuses ErrorCode.enoent dir)

/-- {lit}`readdir`. -/
def readdir (key : Key) (recursive : Bool) : Except FsError (List Key) :=
  (facade.listing key recursive).map (fun names => sorted names.keys)

/-- The entry of a name, its path split at the last slash. -/
def dirent (dir : Key) (names : OrderedMap Key Bool) (name : Key) : VfsDirent :=
  let base := afterLast slash name
  { name := base
    parent := facade.pathOf
      (if slash ∈ name then dir ++ slash :: name.take (name.length - base.length - 1) else dir)
    directory := (names.get name).getD false }

/-- {lit}`readdir` with {lit}`withFileTypes`. -/
def readdirTypes (key : Key) (recursive : Bool) : Except FsError (List VfsDirent) :=
  (facade.listing key recursive).map (fun names =>
    (sorted names.keys).map (facade.dirent (PlaceFiles.dirOf key) names))

/-!
# Names and relative paths
-/

theorem split_joined {names : List PosixPath.Text} (hne : names ≠ [])
    (h : forall name, name ∈ names -> PosixPath.Plain name) :
    PosixPath.split (PosixPath.joined names) = names := by
  cases names with
  | nil => exact absurd rfl hne
  | cons name rest =>
      have hsplit : PosixPath.split (PosixPath.text (name :: rest)) = [] :: name :: rest :=
        PosixPath.split_text (fun n hn => (h n hn).2.2.2)
      have htext : PosixPath.text (name :: rest) =
          PosixPath.separator :: PosixPath.joined (name :: rest) := rfl
      have hcons : PosixPath.split (PosixPath.separator :: PosixPath.joined (name :: rest)) =
          [] :: PosixPath.split (PosixPath.joined (name :: rest)) := if_pos rfl
      rw [htext, hcons] at hsplit
      exact (List.cons.inj hsplit).2

theorem slash_mem_joined {names : List PosixPath.Text} (hne : names ≠ [])
    (h : forall name, name ∈ names -> PosixPath.Plain name) :
    slash ∉ PosixPath.joined names <-> exists name, names = [name] := by
  constructor
  · intro hslash
    have hsplit := split_joined hne h
    rw [PosixPath.split_plain hslash] at hsplit
    exact ⟨_, hsplit.symm⟩
  · intro hex
    rcases hex with ⟨name, heq⟩
    rw [heq] at h ⊢
    show slash ∉ name ++ []
    rw [List.append_nil]
    exact (h name List.mem_cons_self).2.2.2

/-- Where a relative path leads from a directory. -/
theorem entered_joined {names : List PosixPath.Text} (hne : names ≠ [])
    (h : forall name, name ∈ names -> PosixPath.Plain name) (facade : Facade) (dir : Key) :
    facade.entered (dir ++ slash :: PosixPath.joined names) = facade.entered dir ++ names := by
  unfold Facade.entered
  rw [show dir ++ slash :: PosixPath.joined names =
    dir ++ PosixPath.separator :: PosixPath.joined names from rfl,
    PosixPath.split_append_separator, List.foldl_append, split_joined hne h,
    PosixPath.foldl_enter h]

/-!
# What a listing holds
-/

/-- A map filled from a list that gives each key one value. -/
theorem get_setAll {entries : List (Key × Bool)}
    (hvalue : forall key value value', (key, value) ∈ entries -> (key, value') ∈ entries ->
      value = value') (names : OrderedMap Key Bool) (key : Key) (value : Bool) :
    (setAll names entries).get key = some value <->
      (key, value) ∈ entries ∨
        ((forall value', (key, value') ∉ entries) ∧ names.get key = some value) := by
  induction entries generalizing names with
  | nil =>
      constructor
      · intro h
        exact Or.inr ⟨fun _ => List.not_mem_nil, h⟩
      · intro h
        rcases h with h | h
        · cases h
        · exact h.2
  | cons first rest ih =>
      have hrest := ih (fun k v v' hv hv' => hvalue k v v' (List.mem_cons_of_mem _ hv)
        (List.mem_cons_of_mem _ hv')) (names.set first.1 first.2)
      show (setAll (names.set first.1 first.2) rest).get key = some value <-> _
      rw [hrest, OrderedMap.get_set]
      constructor
      · intro h
        rcases h with h | ⟨hnone, hset⟩
        · exact Or.inl (List.mem_cons_of_mem _ h)
        · split_ifs at hset with heq
          · rw [heq, ← Option.some.inj hset]
            exact Or.inl List.mem_cons_self
          · right
            constructor
            · intro value' hmem
              rcases List.mem_cons.mp hmem with hfirst | hmore
              · rw [← hfirst] at heq
                exact heq rfl
              · exact hnone value' hmore
            · exact hset
      · intro h
        rcases h with h | ⟨hnone, hget⟩
        · by_cases hmore : exists value', (key, value') ∈ rest
          · rcases hmore with ⟨value', hmem⟩
            rw [hvalue key value value' h (List.mem_cons_of_mem _ hmem)]
            exact Or.inl hmem
          · right
            constructor
            · exact fun value' hmem => hmore ⟨value', hmem⟩
            · rcases List.mem_cons.mp h with hfirst | hmem
              · rw [← hfirst, if_pos rfl]
              · exact absurd ⟨value, hmem⟩ hmore
        · right
          constructor
          · exact fun value' hmem => hnone value' (List.mem_cons_of_mem _ hmem)
          · have hne : key ≠ first.1 := by
              intro heq
              apply hnone first.2
              rw [heq]
              exact List.mem_cons_self
            rw [if_neg hne]
            exact hget

/-- A published file that the place shows. -/
def Shows (facade : ListedFacade beta) (key : Key) : Prop :=
  facade.place.files.hasSource key = true ∧ facade.visible key = true

/-- What the disk territory lists under a relative name. -/
structure DiskLists (facade : ListedFacade beta) (dir rel : Key) (directory : Bool) : Prop where
  falls : facade.fallsBack = true
  inside : facade.rootNames <+: facade.entered dir
  present : exists names, names ≠ [] ∧ (forall name, name ∈ names -> PosixPath.Plain name) ∧
    rel = PosixPath.joined names ∧ facade.disk (facade.entered dir ++ names) =
      some (if directory then NodeKind.directory else NodeKind.file)
  kept : directory = false -> facade.cached rel = false

/-- What a listing holds under a relative name: a directory of the index, else a file
it shows, else what is on disk. -/
inductive Lists (facade : ListedFacade beta) (dir rel : Key) : Bool -> Prop where
  | directory : facade.place.files.hasDirectory (dir ++ slash :: rel) = true ->
      Lists facade dir rel true
  | file : facade.Shows (dir ++ slash :: rel) -> Lists facade dir rel false
  | disk {directory : Bool} :
      facade.place.files.hasDirectory (dir ++ slash :: rel) = false ->
      ¬ facade.Shows (dir ++ slash :: rel) -> facade.DiskLists dir rel directory ->
      Lists facade dir rel directory

/-- A published state whose keys are paths of plain names, none above another. -/
structure Sound (files : PlaceFiles Version) : Prop where
  indexed : files.Indexed
  apart : PrefixFree slash (fun key => files.hasSource key = true)
  canonical : forall key, files.hasSource key = true -> sep ∉ key ∧
    exists names, names ≠ [] ∧ (forall name, name ∈ names -> PosixPath.Plain name) ∧
      key = PosixPath.text names

section Held

variable {facade : ListedFacade beta} {dir rel : Key} {directory recursive : Bool}

theorem Sound.not_source (h : Sound facade.place.files) {key : Key}
    (hdir : facade.place.files.hasDirectory key = true) :
    facade.place.files.hasSource key = false := by
  rcases (PlaceFiles.hasDirectory_iff h.indexed key).mp hdir with ⟨source, hsource, habove⟩
  exact Bool.eq_false_iff.mpr (fun hhas => h.apart key source hhas hsource habove)

theorem mem_indexed (h : Sound facade.place.files) :
    (rel, directory) ∈ facade.indexed dir recursive <->
      (recursive = false -> slash ∉ rel) ∧
        ((facade.place.files.hasDirectory (dir ++ slash :: rel) = true ∧ directory = true) ∨
          (facade.Shows (dir ++ slash :: rel) ∧ directory = false)) := by
  have hfound : forall child : Key × Bool,
      child ∈ (if recursive then facade.place.files.below dir
        else facade.place.files.children dir) <->
      exists rest, child.1 = dir ++ slash :: rest ∧ (recursive = false -> slash ∉ rest) ∧
        (if child.2 then facade.place.files.hasDirectory child.1
          else facade.place.files.hasSource child.1) = true := by
    intro child
    cases recursive with
    | true =>
        rw [if_pos rfl, PlaceFiles.mem_below h.indexed]
        constructor
        · intro hbelow
          rcases hbelow with ⟨⟨rest, hrest⟩, hhas⟩
          exact ⟨rest, hrest, (fun hfalse => by cases hfalse), hhas⟩
        · intro hex
          rcases hex with ⟨rest, hrest, _, hhas⟩
          exact ⟨⟨rest, hrest⟩, hhas⟩
    | false =>
        rw [if_neg Bool.false_ne_true, PlaceFiles.mem_children h.indexed]
        constructor
        · intro hex
          rcases hex with ⟨name, hname, hkey, hbelow⟩
          exact ⟨name, hkey, fun _ => hname, hbelow.2⟩
        · intro hex
          rcases hex with ⟨name, hkey, hname, hhas⟩
          exact ⟨name, hname rfl, hkey, ⟨name, hkey⟩, hhas⟩
  have hdrop : forall rest : Key, (dir ++ slash :: rest).drop (dir.length + 1) = rest := by
    intro rest
    rw [← List.drop_drop, List.drop_left]
    rfl
  unfold indexed
  dsimp only
  rw [List.mem_map]
  constructor
  · intro hex
    rcases hex with ⟨⟨key, isDir⟩, hmem, heq⟩
    rcases List.mem_filter.mp hmem with ⟨hchild, hshown⟩
    rcases (hfound _).mp hchild with ⟨rest, hkey, hname, hhas⟩
    dsimp only at hkey hhas hshown heq
    rw [hkey, hdrop] at heq
    cases heq
    rw [hkey] at hhas hshown
    constructor
    · exact hname
    · cases directory with
      | true => exact Or.inl ⟨hhas, rfl⟩
      | false => exact Or.inr ⟨⟨hhas, hshown⟩, rfl⟩
  · intro hheld
    rcases hheld with ⟨hname, ⟨hhas, heq⟩ | ⟨hshows, heq⟩⟩
    · rw [heq]
      exact ⟨(dir ++ slash :: rel, true),
        List.mem_filter.mpr ⟨(hfound _).mpr ⟨rel, rfl, hname, hhas⟩, rfl⟩, by rw [hdrop]⟩
    · rw [heq]
      exact ⟨(dir ++ slash :: rel, false),
        List.mem_filter.mpr ⟨(hfound _).mpr ⟨rel, rfl, hname, hshows.1⟩, hshows.2⟩,
        by rw [hdrop]⟩

/-- The directory is there on disk, inside the place. -/
structure OnDisk (facade : ListedFacade beta) (dir : Key) : Prop where
  falls : facade.fallsBack = true
  inside : facade.rootNames <+: facade.entered dir
  present : facade.disk (facade.entered dir) = some NodeKind.directory

theorem disk_directory {loc : Loc} (h : facade.disk loc = some NodeKind.directory) :
    exists entries, facade.tree.get loc = some (Node.directory entries) := by
  rw [facade.view] at h
  rcases Option.map_eq_some_iff.mp h with ⟨node, hnode, hkind⟩
  split_ifs at hkind with hdir
  cases node with
  | directory entries => exact ⟨entries, hnode⟩
  | file content => cases hdir
  | link target => cases hdir
  | special => cases hdir

theorem disk_of_directory {loc : Loc} {entries : List (PosixPath.Text × Node beta)}
    (h : facade.tree.get loc = some (Node.directory entries)) :
    facade.disk loc = some NodeKind.directory := by
  rw [facade.view, h]
  rfl

/-- Whatever is listed from disk lies in a directory. -/
theorem DiskLists.onDisk (h : facade.DiskLists dir rel directory) : facade.OnDisk dir := by
  rcases h.present with ⟨names, hne, _, _, hdisk⟩
  cases names with
  | nil => exact absurd rfl hne
  | cons name rest =>
      rw [facade.view] at hdisk
      rcases Option.map_eq_some_iff.mp hdisk with ⟨node, hnode, _⟩
      rcases Node.get_cons hnode with ⟨parent, child, hparent, hdir, _, _⟩
      have hpresent : facade.disk (facade.entered dir) = some NodeKind.directory := by
        rw [facade.view, hparent, Option.map_some, if_pos hdir]
      exact ⟨h.falls, h.inside, hpresent⟩

theorem DiskLists.unique {directory' : Bool} (h : facade.DiskLists dir rel directory)
    (h' : facade.DiskLists dir rel directory') : directory = directory' := by
  rcases h.present with ⟨names, hne, hplain, heq, hdisk⟩
  rcases h'.present with ⟨names', hne', hplain', heq', hdisk'⟩
  have hnames : names = names' := by
    rw [← split_joined hne hplain, ← split_joined hne' hplain', ← heq, heq']
  rw [hnames, hdisk'] at hdisk
  cases directory with
  | true =>
      cases directory' with
      | true => rfl
      | false => cases hdisk
  | false =>
      cases directory' with
      | true => cases hdisk
      | false => rfl

/-- The path whose entries are read. -/
theorem within_dir (facade : ListedFacade beta) (dir : Key) :
    (facade.rootNames <+: facade.entered dir ->
      exists path, facade.within (if dir = [] then [slash] else dir) = some path ∧
        PosixPath.resolve [] path = facade.entered dir) ∧
    (¬ facade.rootNames <+: facade.entered dir ->
      facade.within (if dir = [] then [slash] else dir) = none) := by
  have hentered : facade.entered (if dir = [] then [slash] else dir) = facade.entered dir := by
    by_cases hnil : dir = []
    · rw [if_pos hnil, hnil]
      rfl
    · rw [if_neg hnil]
  rw [Facade.within_eq, hentered]
  constructor
  · intro hbelow
    have hne : facade.entered dir ≠ [] := by
      intro hnil
      rw [hnil] at hbelow
      exact facade.rootNames_ne_nil (List.prefix_nil.mp hbelow)
    rw [if_pos hbelow]
    exact ⟨_, rfl, PosixPath.resolve_trailing (facade.entered_plain dir) hne [] _⟩
  · intro hbelow
    rw [if_neg hbelow]

/-- What {lit}`readdirSync` says of the directory of a key. -/
theorem readdirSync_spec {path : FilePath} {loc : Loc}
    (hloc : PosixPath.resolve [] path = loc) (hpath : sep ∉ path) :
    (facade.readdirSync path recursive = none <->
      facade.disk loc ≠ some NodeKind.directory) ∧
    forall entries, facade.readdirSync path recursive = some entries ->
      forall names node, (names, node) ∈ entries <->
        names ≠ [] ∧ (recursive = false -> exists name, names = [name]) ∧
          facade.tree.get (loc ++ names) = some node := by
  have hread : facade.readdirSync path recursive =
      (facade.tree.get loc).bind (entriesOf recursive) := by
    unfold readdirSync
    rw [if_neg hpath, hloc]
  by_cases hdir : facade.disk loc = some NodeKind.directory
  · rcases disk_directory hdir with ⟨held, hheld⟩
    rw [hheld, Option.bind_some] at hread
    have hproper := (Node.proper_get facade.proper hheld).1
    have hget : forall names, facade.tree.get (loc ++ names) =
        (Node.directory held).get names := by
      intro names
      rw [Node.get_append, hheld]
      rfl
    rw [hread]
    constructor
    · constructor
      · intro hnone
        cases recursive with
        | true => cases hnone
        | false => cases hnone
      · intro hnot
        exact absurd hdir hnot
    · intro entries hentries names node
      rw [hget]
      cases recursive with
      | true =>
          rw [← Option.some.inj hentries, Node.mem_beneath hproper]
          constructor
          · intro hmem
            exact ⟨hmem.1, (fun hfalse => by cases hfalse), hmem.2⟩
          · intro hmem
            exact ⟨hmem.1, hmem.2.2⟩
      | false =>
          have hmap : held.map (fun entry => ([entry.1], entry.2)) = entries :=
            Option.some.inj hentries
          rw [← hmap, List.mem_map]
          constructor
          · intro hex
            rcases hex with ⟨⟨name, child⟩, hmem, heq⟩
            cases heq
            have hlookup : held.lookup name = some child :=
              Node.lookup_of_mem (Node.proper_directory.mp hproper).1 hmem
            constructor
            · exact List.cons_ne_nil _ _
            · constructor
              · intro _
                exact ⟨name, rfl⟩
              · show (held.lookup name).bind (fun node => some node) = some child
                rw [hlookup]
                rfl
          · intro hmem
            rcases hmem.2.1 rfl with ⟨name, heq⟩
            rw [heq] at hmem ⊢
            rcases Option.bind_eq_some_iff.mp hmem.2.2 with ⟨child, hchild, hself⟩
            have hnode : child = node := Option.some.inj hself
            rw [hnode] at hchild
            exact ⟨(name, node), Node.mem_of_lookup hchild, rfl⟩
  · have hnone : facade.readdirSync path recursive = none := by
      rw [hread]
      cases hget : facade.tree.get loc with
      | none => rfl
      | some node =>
          cases node with
          | directory entries => exact absurd (disk_of_directory hget) hdir
          | file content => rfl
          | link target => rfl
          | special => rfl
    constructor
    · constructor
      · intro _
        exact hdir
      · intro _
        exact hnone
    · intro entries hentries
      rw [hnone] at hentries
      cases hentries

theorem mem_diskEntry {entries : List (Loc × Node beta)}
    (hentries : forall names node, (names, node) ∈ entries <->
      names ≠ [] ∧ (recursive = false -> exists name, names = [name]) ∧
        facade.tree.get (facade.entered dir ++ names) = some node)
    (honDisk : facade.OnDisk dir) :
    (rel, directory) ∈ entries.filterMap facade.diskEntry <->
      (recursive = false -> slash ∉ rel) ∧ facade.DiskLists dir rel directory := by
  have hplain : forall names node, facade.tree.get (facade.entered dir ++ names) = some node ->
      forall name, name ∈ names -> PosixPath.Plain name := by
    intro names node hget name hname
    exact (Node.proper_get facade.proper hget).2 name (List.mem_append_right _ hname)
  rw [List.mem_filterMap]
  constructor
  · intro hex
    rcases hex with ⟨⟨names, node⟩, hmem, hentry⟩
    rcases (hentries names node).mp hmem with ⟨hne, hsingle, hget⟩
    have hdisk := facade.view (facade.entered dir ++ names)
    rw [hget, Option.map_some] at hdisk
    have hslash : rel = PosixPath.joined names -> recursive = false -> slash ∉ rel := by
      intro heq hrec
      rw [heq]
      exact (slash_mem_joined hne (hplain names node hget)).mpr (hsingle hrec)
    unfold diskEntry at hentry
    dsimp only at hentry
    split_ifs at hentry with hdir hfile
    · cases hentry
      rw [if_pos hdir] at hdisk
      exact ⟨hslash rfl, honDisk.falls, honDisk.inside,
        ⟨names, hne, hplain names node hget, rfl, hdisk⟩, fun hfalse => by cases hfalse⟩
    · cases hentry
      rw [if_neg hdir] at hdisk
      rcases Bool.and_eq_true_iff.mp hfile with ⟨_, huncached⟩
      exact ⟨hslash rfl, honDisk.falls, honDisk.inside,
        ⟨names, hne, hplain names node hget, rfl, hdisk⟩,
        fun _ => by simpa using huncached⟩
  · intro hlists
    rcases hlists with ⟨hslash, hlists⟩
    rcases hlists.present with ⟨names, hne, hnames, heq, hdisk⟩
    rw [facade.view] at hdisk
    rcases Option.map_eq_some_iff.mp hdisk with ⟨node, hnode, hkind⟩
    have hsingle : recursive = false -> exists name, names = [name] := by
      intro hrec
      rw [heq] at hslash
      exact (slash_mem_joined hne hnames).mp (hslash hrec)
    have hmem := (hentries names node).mpr ⟨hne, hsingle, hnode⟩
    have hentry : facade.diskEntry (names, node) = some (rel, directory) := by
      unfold diskEntry
      dsimp only
      cases directory with
      | true =>
          by_cases hdir : node.isDirectory = true
          · rw [if_pos hdir, heq]
          · rw [if_neg hdir] at hkind
            cases hkind
      | false =>
          by_cases hdir : node.isDirectory = true
          · rw [if_pos hdir] at hkind
            cases hkind
          · have hfile := (facade.regular _ node hnode).resolve_left hdir
            rw [if_neg hdir, hfile, ← heq, hlists.kept rfl, Bool.not_false, Bool.and_self,
              if_pos rfl]
    exact ⟨(names, node), hmem, hentry⟩

/-- The entries of a directory on disk. -/
theorem diskEntries_spec (hbare : sep ∉ dir) (names : OrderedMap Key Bool) :
    (facade.OnDisk dir -> exists entries,
      facade.diskEntries dir names recursive = some (setAll names entries) ∧
      forall rel directory, (rel, directory) ∈ entries <->
        (recursive = false -> slash ∉ rel) ∧ facade.DiskLists dir rel directory) ∧
    (¬ facade.OnDisk dir -> facade.diskEntries dir names recursive = none) := by
  have hbare' : sep ∉ (if dir = [] then [slash] else dir) := by
    split_ifs
    · decide
    · exact hbare
  rcases within_dir facade dir with ⟨hin, hout⟩
  unfold diskEntries
  by_cases hfalls : facade.fallsBack = true
  · rw [if_pos hfalls]
    by_cases hinside : facade.rootNames <+: facade.entered dir
    · rcases hin hinside with ⟨path, hpath, hresolve⟩
      rcases (readdirSync_spec hresolve (Facade.sep_not_mem_within hbare' hpath) :
        (facade.readdirSync path recursive = none <-> _) ∧ _) with ⟨hnone, hentries⟩
      rw [hpath, Option.bind_some]
      constructor
      · intro honDisk
        cases hread : facade.readdirSync path recursive with
        | none => exact absurd honDisk.present (hnone.mp hread)
        | some entries =>
            exact ⟨entries.filterMap facade.diskEntry, rfl,
              fun rel directory => mem_diskEntry (hentries entries hread) honDisk⟩
      · intro honDisk
        have hread := hnone.mpr (fun hpresent => honDisk ⟨hfalls, hinside, hpresent⟩)
        rw [hread]
        rfl
    · rw [hout hinside]
      constructor
      · intro honDisk
        exact absurd honDisk.inside hinside
      · intro _
        rfl
  · rw [if_neg hfalls]
    constructor
    · intro honDisk
      exact absurd honDisk.falls hfalls
    · intro _
      rfl

theorem Lists.of_indexed (h : (rel, directory) ∈ facade.indexed dir recursive)
    (hsound : Sound facade.place.files) : facade.Lists dir rel directory := by
  rcases ((mem_indexed hsound).mp h).2 with ⟨hdir, heq⟩ | ⟨hshows, heq⟩
  · rw [heq]
    exact Lists.directory hdir
  · rw [heq]
    exact Lists.file hshows

/-- What the index adds to the entries of the disk. -/
theorem get_merged (hsound : Sound facade.place.files) {entries : List (Key × Bool)}
    (hentries : forall rel directory, (rel, directory) ∈ entries <->
      (recursive = false -> slash ∉ rel) ∧ facade.DiskLists dir rel directory) :
    (setAll (setAll OrderedMap.empty entries) (facade.indexed dir recursive)).get rel =
        some directory <->
      (recursive = false -> slash ∉ rel) ∧ facade.Lists dir rel directory := by
  have hvalue : forall key value value', (key, value) ∈ facade.indexed dir recursive ->
      (key, value') ∈ facade.indexed dir recursive -> value = value' := by
    intro key value value' hmem hmem'
    rcases ((mem_indexed hsound).mp hmem).2 with ⟨hdir, heq⟩ | ⟨hshows, heq⟩
    · rcases ((mem_indexed hsound).mp hmem').2 with ⟨_, heq'⟩ | ⟨hshows', _⟩
      · rw [heq, heq']
      · have hnot := hsound.not_source hdir
        rw [hshows'.1] at hnot
        cases hnot
    · rcases ((mem_indexed hsound).mp hmem').2 with ⟨hdir', _⟩ | ⟨_, heq'⟩
      · have hnot := hsound.not_source hdir'
        rw [hshows.1] at hnot
        cases hnot
      · rw [heq, heq']
  have hdisk : forall key value value', (key, value) ∈ entries -> (key, value') ∈ entries ->
      value = value' := by
    intro key value value' hmem hmem'
    exact ((hentries key value).mp hmem).2.unique ((hentries key value').mp hmem').2
  rw [get_setAll hvalue, get_setAll hdisk]
  constructor
  · intro h
    rcases h with hmem | ⟨hnone, hmem | ⟨_, hget⟩⟩
    · exact ⟨((mem_indexed hsound).mp hmem).1, Lists.of_indexed hmem hsound⟩
    · rcases (hentries rel directory).mp hmem with ⟨hslash, hlists⟩
      have hdir : facade.place.files.hasDirectory (dir ++ slash :: rel) = false :=
        Bool.eq_false_iff.mpr (fun hdir =>
          hnone true ((mem_indexed hsound).mpr ⟨hslash, Or.inl ⟨hdir, rfl⟩⟩))
      have hshows : ¬ facade.Shows (dir ++ slash :: rel) := fun hshows =>
        hnone false ((mem_indexed hsound).mpr ⟨hslash, Or.inr ⟨hshows, rfl⟩⟩)
      exact ⟨hslash, Lists.disk hdir hshows hlists⟩
    · cases hget
  · intro h
    rcases h with ⟨hslash, hlists⟩
    cases hlists with
    | directory hdir => exact Or.inl ((mem_indexed hsound).mpr ⟨hslash, Or.inl ⟨hdir, rfl⟩⟩)
    | file hshows => exact Or.inl ((mem_indexed hsound).mpr ⟨hslash, Or.inr ⟨hshows, rfl⟩⟩)
    | disk hdir hshows hlists =>
        right
        constructor
        · intro value' hmem
          rcases ((mem_indexed hsound).mp hmem).2 with ⟨hdir', _⟩ | ⟨hshows', _⟩
          · rw [hdir'] at hdir
            cases hdir
          · exact hshows hshows'
        · exact Or.inl ((hentries rel directory).mpr ⟨hslash, hlists⟩)

/-- The directories that {lit}`readdir` accepts. -/
structure Accepts (facade : ListedFacade beta) (dir : Key) : Prop where
  free : dir ≠ [] -> facade.file dir = none
  held : facade.OnDisk dir ∨ dir = [] ∨ facade.place.files.hasDirectory dir = true

theorem listing_spec (hsound : Sound facade.place.files) (hbare : sep ∉ dir)
    (hdir : PlaceFiles.dirOf dir = dir) :
    (facade.Accepts dir -> exists names, facade.listing dir recursive = Except.ok names) ∧
    forall names, facade.listing dir recursive = Except.ok names ->
      facade.Accepts dir ∧ forall rel directory, names.get rel = some directory <->
        (recursive = false -> slash ∉ rel) ∧ facade.Lists dir rel directory := by
  have hheld : facade.place.files.isDirectory dir = true <->
      dir = [] ∨ facade.place.files.hasDirectory dir = true := by
    unfold PlaceFiles.isDirectory
    rw [hdir, Bool.or_eq_true, List.isEmpty_iff]
  have hfile : ¬ (dir ≠ [] ∧ (facade.file dir).isSome = true) <->
      (dir ≠ [] -> facade.file dir = none) := by
    rw [not_and, Option.not_isSome_iff_eq_none]
  rcases (diskEntries_spec hbare OrderedMap.empty : (facade.OnDisk dir -> exists entries,
    facade.diskEntries dir OrderedMap.empty recursive = some _ ∧ _) ∧ _) with ⟨hon, hoff⟩
  unfold listing
  dsimp only
  rw [hdir]
  by_cases hfree : dir ≠ [] ∧ (facade.file dir).isSome = true
  · rw [if_pos hfree]
    constructor
    · intro haccepts
      exact absurd hfree (hfile.mpr haccepts.free)
    · intro names hnames
      cases hnames
  · rw [if_neg hfree]
    by_cases honDisk : facade.OnDisk dir
    · rcases hon honDisk with ⟨entries, hentries, hmem⟩
      rw [hentries]
      constructor
      · intro _
        exact ⟨_, rfl⟩
      · intro names hnames
        cases hnames
        exact ⟨⟨hfile.mp hfree, Or.inl honDisk⟩, fun rel directory => get_merged hsound hmem⟩
    · rw [hoff honDisk]
      have hmem : forall rel directory, (rel, directory) ∈ ([] : List (Key × Bool)) <->
          (recursive = false -> slash ∉ rel) ∧ facade.DiskLists dir rel directory := by
        intro rel directory
        constructor
        · intro hnil
          cases hnil
        · intro hlists
          exact absurd hlists.2.onDisk honDisk
      show (_ -> exists names, (if facade.place.files.isDirectory dir = true then _ else _) = _) ∧
        forall names, (if facade.place.files.isDirectory dir = true then _ else _) = _ -> _
      by_cases hindex : facade.place.files.isDirectory dir = true
      · rw [if_pos hindex]
        constructor
        · intro _
          exact ⟨_, rfl⟩
        · intro names hnames
          cases hnames
          exact ⟨⟨hfile.mp hfree, Or.inr (hheld.mp hindex)⟩,
            fun rel directory => get_merged hsound hmem⟩
      · rw [if_neg hindex]
        constructor
        · intro haccepts
          exact absurd haccepts.held
            (fun hor => hor.elim honDisk (fun h => hindex (hheld.mpr h)))
        · intro names hnames
          cases hnames

end Held

end ListedFacade

end SharedMemoryFs
