import SharedMemoryFs.Places.Subtree
import SharedMemoryFs.Places.SabSchedule

/-!
# What companions were built of

Whichever store keeps a place and however its mutations overlap, a companion was built of
exactly the version published beside it, and a script always has its cached data.
-/

namespace SharedMemoryFs

open Foundation PlaceFiles

variable {codec : Encoding -> Bytes -> Bytes -> Prop} {place : Place} {files : Files}
  {source target : Key}

/-- One companion of the version {lit}`file` under {lit}`key`; {lit}`codec` relates the
bytes of a source to what its encodings may be. -/
inductive Built (codec : Encoding -> Bytes -> Bytes -> Prop) (place : Place) (key : Key)
    (file : PlaceFile) : Flavor -> PlaceFile -> Prop where
  | bytecode (domain : BytecodeDomain) (data : Bytes) :
      domain ∈ place.bytecodeDomains key ->
      place.createBytecode key file.data file.scriptOptions domain = some data ->
      Built codec place key file (Flavor.bytecode domain)
        (MapStore.codeFile file.stat.mtimeMs data)
  | compressed (encoding : Encoding) (data : Bytes) :
      Flavor.compressed encoding ∈ place.config.flavors place.fileExt key ->
      codec encoding file.data data ->
      Built codec place key file (Flavor.compressed encoding)
        { data := data
          stat :=
            { size := data.length
              mtimeMs := file.stat.mtimeMs
              sourceSize := some file.stat.size
              encoding := some encoding } }

/-- A version as the pipeline makes it: its stat is that of its bytes, and only a preparer
attaches anything to it. -/
structure Plainly (place : Place) (key : Key) (file : PlaceFile) : Prop where
  stat : file.stat = { size := file.data.length, mtimeMs := file.stat.mtimeMs }
  bare : place.prepared key = none -> file.scriptOptions = none ∧ file.metadata = none

structure Paired (codec : Encoding -> Bytes -> Bytes -> Prop) (place : Place)
    (files : Files) : Prop where
  built : forall key flavor companion, files.get ⟨key, some flavor⟩ = some companion ->
    exists file, files.get (EntryKey.ofSource key) = some file ∧
      Built codec place key file flavor companion
  scripts : forall key file, files.get (EntryKey.ofSource key) = some file ->
    BytecodeDomain.script ∈ place.bytecodeDomains key ->
    exists code, files.get (bytecodeKey key BytecodeDomain.script) = some code
  plainly : forall key file, files.get (EntryKey.ofSource key) = some file ->
    Plainly place key file

theorem Built.flavor {key : Key} {file companion : PlaceFile} {flavor : Flavor}
    (h : Built codec place key file flavor companion) :
    flavor ∈ place.config.flavors place.fileExt key := by
  cases h with
  | bytecode domain data hdomain hdata =>
      exact List.mem_append_left _ (List.mem_map_of_mem hdomain)
  | compressed encoding data hflavor hcodec => exact hflavor

theorem Built.companion {key : Key} {file companion : PlaceFile} {flavor : Flavor}
    (h : Built codec place key file flavor companion) :
    (⟨key, some flavor⟩ : EntryKey) ∈ place.companions key := flavor_mem_companions h.flavor

theorem Built.bare {key : Key} {file companion : PlaceFile} {flavor : Flavor}
    (h : Built codec place key file flavor companion) :
    companion.scriptOptions = none ∧ companion.metadata = none := by
  cases h with
  | bytecode domain data hdomain hdata => exact ⟨rfl, rfl⟩
  | compressed encoding data hflavor hcodec => exact ⟨rfl, rfl⟩

theorem Paired.empty : Paired codec place PlaceFiles.empty := by
  constructor
  · intro key flavor companion hget
    cases hget
  · intro key file hget
    cases hget
  · intro key file hget
    cases hget

/-- Only what lies under a key counts. -/
theorem Paired.congr {files' : Files} (h : Paired codec place files)
    (hsame : forall k, files'.get k = files.get k) : Paired codec place files' := by
  constructor
  · intro key flavor companion hget
    rw [hsame] at hget
    rw [hsame]
    exact h.built key flavor companion hget
  · intro key file hget hscript
    rw [hsame] at hget
    rw [hsame]
    exact h.scripts key file hget hscript
  · intro key file hget
    rw [hsame] at hget
    exact h.plainly key file hget

/-!
# Where files go
-/

/-- Sources that go take their companions along, and nothing else changes. -/
theorem Paired.removed {files' : Files} (h : Paired codec place files) {keys : List Key}
    (hget : forall k, files'.get k =
      if exists key, key ∈ keys ∧ (k = EntryKey.ofSource key ∨ k ∈ place.companions key)
      then none else files.get k) : Paired codec place files' := by
  have hstays : forall {key : Key}, key ∉ keys -> forall flavor,
      files'.get ⟨key, flavor⟩ = files.get ⟨key, flavor⟩ := by
    intro key hkey flavor
    rw [hget, if_neg]
    intro hgone
    rcases hgone with ⟨gone, hmem, hself | hcompanion⟩
    · have heq : key = gone := congrArg EntryKey.source hself
      exact hkey (heq ▸ hmem)
    · have heq : key = gone := (Place.source_of_companion hcompanion).1
      exact hkey (heq ▸ hmem)
  have hgone : forall {key : Key}, key ∈ keys -> files'.get (EntryKey.ofSource key) = none := by
    intro key hkey
    rw [hget, if_pos ⟨key, hkey, Or.inl rfl⟩]
  constructor
  · intro key flavor companion hcompanion
    by_cases hkey : key ∈ keys
    · rw [hget] at hcompanion
      split_ifs at hcompanion with hdropped
      rcases h.built key flavor companion hcompanion with ⟨file, _, hbuilt⟩
      exact absurd ⟨key, hkey, Or.inr hbuilt.companion⟩ hdropped
    · rw [hstays hkey] at hcompanion
      have hsource : files'.get (EntryKey.ofSource key) = _ := hstays hkey none
      rw [hsource]
      exact h.built key flavor companion hcompanion
  · intro key file hfile hscript
    by_cases hkey : key ∈ keys
    · rw [hgone hkey] at hfile
      cases hfile
    · have hsource : files'.get (EntryKey.ofSource key) = _ := hstays hkey none
      rw [hsource] at hfile
      rw [bytecodeKey, hstays hkey]
      exact h.scripts key file hfile hscript
  · intro key file hfile
    by_cases hkey : key ∈ keys
    · rw [hgone hkey] at hfile
      cases hfile
    · have hsource : files'.get (EntryKey.ofSource key) = _ := hstays hkey none
      rw [hsource] at hfile
      exact h.plainly key file hfile

/-!
# Where files come from
-/

/-- One version is published with all its flavors; every other key keeps what it had, or
loses it all. -/
structure Published (codec : Encoding -> Bytes -> Bytes -> Prop) (place : Place) (key : Key)
    (input : PlaceFile) (old new : Files) : Prop where
  source : new.get (EntryKey.ofSource key) = some input
  built : forall flavor companion, new.get ⟨key, some flavor⟩ = some companion ->
    Built codec place key input flavor companion
  script : BytecodeDomain.script ∈ place.bytecodeDomains key ->
    exists code, new.get (bytecodeKey key BytecodeDomain.script) = some code
  others : forall other, other ≠ key -> forall flavor,
    new.get ⟨other, flavor⟩ = old.get ⟨other, flavor⟩

theorem Paired.published {files' : Files} (h : Paired codec place files) {key : Key}
    {input : PlaceFile} (hinput : Plainly place key input)
    (hnew : Published codec place key input files files') : Paired codec place files' := by
  constructor
  · intro other flavor companion hget
    by_cases hkey : other = key
    · rw [hkey] at hget ⊢
      exact ⟨input, hnew.source, hnew.built flavor companion hget⟩
    · rw [hnew.others other hkey] at hget
      rcases h.built other flavor companion hget with ⟨file, hfile, hbuilt⟩
      exact ⟨file, (hnew.others other hkey none).trans hfile, hbuilt⟩
  · intro other file hfile hscript
    by_cases hkey : other = key
    · rw [hkey] at hscript ⊢
      exact hnew.script hscript
    · rw [bytecodeKey, hnew.others other hkey]
      exact h.scripts other file ((hnew.others other hkey none).symm.trans hfile) hscript
  · intro other file hfile
    by_cases hkey : other = key
    · rw [hkey, hnew.source] at hfile
      rw [hkey, ← Option.some.inj hfile]
      exact hinput
    · exact h.plainly other file ((hnew.others other hkey none).symm.trans hfile)

/-- Where files are told apart by their last names only, what a place makes of a source
does not depend on where it lies. -/
theorem Place.policies_rekey (hext : NameExt place.fileExt) (rest : Key) :
    place.config.flavors place.fileExt (target ++ slash :: rest) =
        place.config.flavors place.fileExt (source ++ slash :: rest) ∧
      place.prepared (target ++ slash :: rest) = place.prepared (source ++ slash :: rest) ∧
      place.bytecodeDomains (target ++ slash :: rest) =
        place.bytecodeDomains (source ++ slash :: rest) := by
  have hkey : place.fileExt (target ++ slash :: rest) = place.fileExt (source ++ slash :: rest) :=
    hext target source rest
  unfold Place.prepared Place.bytecodeDomains PlaceConfig.flavors PlaceConfig.bytecodeDomains
    PlaceConfig.prepared PlaceConfig.compressible PlaceConfig.visibleRequire
    PlaceConfig.visibleFs PlaceConfig.scripted
  rw [hkey]
  exact ⟨rfl, rfl, rfl⟩

theorem Place.immovable_none {key : Key} (h : place.immovable files key = none) :
    place.bytecodeDomains key = [] ∧ forall file,
      files.get (EntryKey.ofSource key) = some file ->
        file.scriptOptions = none ∧ file.metadata = none := by
  unfold Place.immovable at h
  split_ifs at h with hprepared hdomains
  refine ⟨not_not.mp hdomains, ?_⟩
  intro file hfile
  rw [hfile] at h
  dsimp only at h
  split_ifs at h with hfields
  rw [not_or, Option.not_isSome_iff_eq_none, Option.not_isSome_iff_eq_none] at hfields
  exact hfields

/-- What nobody attached anything to moves as it is. -/
theorem Faithful.bare {moved : PlaceFile -> PlaceFile} (h : Faithful moved) {file : PlaceFile}
    (hoptions : file.scriptOptions = none) (hmetadata : file.metadata = none) :
    moved file = file := by
  rcases h.plain file hoptions hmetadata with ⟨hoptions', hmetadata'⟩
  have hcontent := Prod.mk.inj (h.content file)
  calc moved file = ⟨(moved file).data, (moved file).stat, (moved file).scriptOptions,
        (moved file).metadata⟩ := rfl
    _ = ⟨file.data, file.stat, file.scriptOptions, file.metadata⟩ := by
        rw [hcontent.1, hcontent.2, hoptions', hmetadata', hoptions, hmetadata]
    _ = file := rfl

/-- A subtree moves with its companions. -/
theorem Paired.rekeyed (hext : NameExt place.fileExt) {moved : PlaceFile -> PlaceFile}
    (hmoved : Faithful moved) {new : Files} {moves : List (EntryKey × EntryKey)}
    (hmovable : place.Movable files source target moves)
    (hnew : Rekeyed moved source target files new) (h : Paired codec place files) :
    Paired codec place new := by
  have hdata : forall file, (moved file).data = file.data :=
    fun file => congrArg Prod.fst (hmoved.content file)
  have hstat : forall file, (moved file).stat = file.stat :=
    fun file => congrArg Prod.snd (hmoved.content file)
  have himmovable : forall {rest : Key} {file : PlaceFile},
      files.get (EntryKey.ofSource (source ++ slash :: rest)) = some file ->
      place.bytecodeDomains (source ++ slash :: rest) = [] ∧
        file.scriptOptions = none ∧ file.metadata = none := by
    intro rest file hfile
    rcases Place.immovable_none (hmovable.movable _ (hasSource_iff.mpr ⟨file, hfile⟩)
      ⟨rest, rfl⟩) with ⟨hdomains, hbare⟩
    exact ⟨hdomains, hbare file hfile⟩
  have hinside : forall {rest : Key} {file : PlaceFile},
      new.get (EntryKey.ofSource (target ++ slash :: rest)) = some file ->
      exists old, files.get (EntryKey.ofSource (source ++ slash :: rest)) = some old ∧
        moved old = file :=
    fun hfile => Option.map_eq_some_iff.mp ((hnew.inside _ none).symm.trans hfile)
  constructor
  · intro key flavor companion hget
    by_cases htarget : Above slash target key
    · rcases htarget with ⟨rest, hrest⟩
      rw [hrest] at hget ⊢
      rw [hnew.inside] at hget
      rcases Option.map_eq_some_iff.mp hget with ⟨packed, hpacked, heq⟩
      rcases h.built _ flavor packed hpacked with ⟨file, hfile, hbuilt⟩
      have hsource : new.get (EntryKey.ofSource (target ++ slash :: rest)) =
          some (moved file) := (hnew.inside rest none).trans (congrArg (Option.map moved) hfile)
      refine ⟨moved file, hsource, ?_⟩
      rw [← heq, hmoved.bare hbuilt.bare.1 hbuilt.bare.2]
      rcases himmovable hfile with ⟨hdomains, _⟩
      cases hbuilt with
      | bytecode domain data hdomain _ =>
          rw [hdomains] at hdomain
          cases hdomain
      | compressed encoding data hflavor hcodec =>
          rw [← (@Place.policies_rekey place source target hext rest).1] at hflavor
          rw [← hdata file] at hcodec
          rw [← hstat file]
          exact Built.compressed encoding data hflavor hcodec
    · by_cases hgone : Above slash source key
      · rcases hgone with ⟨rest, hrest⟩
        rw [hrest, hnew.gone] at hget
        cases hget
      · rw [hnew.kept key _ hgone htarget] at hget
        rcases h.built key flavor companion hget with ⟨file, hfile, hbuilt⟩
        exact ⟨file, (hnew.kept key none hgone htarget).trans hfile, hbuilt⟩
  · intro key file hget hscript
    by_cases htarget : Above slash target key
    · rcases htarget with ⟨rest, hrest⟩
      rw [hrest] at hget hscript
      rcases hinside hget with ⟨old, hold, _⟩
      rw [(Place.policies_rekey hext rest).2.2, (himmovable hold).1] at hscript
      cases hscript
    · by_cases hgone : Above slash source key
      · rcases hgone with ⟨rest, hrest⟩
        rw [hrest] at hget
        cases (hnew.gone rest none).symm.trans hget
      · rw [bytecodeKey, hnew.kept key _ hgone htarget]
        exact h.scripts key file ((hnew.kept key none hgone htarget).symm.trans hget) hscript
  · intro key file hget
    by_cases htarget : Above slash target key
    · rcases htarget with ⟨rest, hrest⟩
      rw [hrest] at hget ⊢
      rcases hinside hget with ⟨old, hold, heq⟩
      rcases himmovable hold with ⟨_, hoptions, hmetadata⟩
      rw [← heq]
      constructor
      · rw [hstat, hdata]
        exact (h.plainly _ old hold).stat
      · exact fun _ => hmoved.plain old hoptions hmetadata
    · by_cases hgone : Above slash source key
      · rcases hgone with ⟨rest, hrest⟩
        rw [hrest] at hget
        cases (hnew.gone rest none).symm.trans hget
      · exact h.plainly key file ((hnew.kept key none hgone htarget).symm.trans hget)

/-!
# What the pipeline hands on
-/

theorem Place.prepareInput_plainly {key : Key} {stat : Stat} {raw : Bytes} {preparer : Preparer}
    {file : PlaceFile} {name : String} (hprepared : place.prepared key = some name)
    (hstat : stat = { size := raw.length, mtimeMs := stat.mtimeMs })
    (h : (place.prepareInput key stat raw preparer).2 = Except.ok file) :
    Plainly place key file := by
  constructor
  · unfold Place.prepareInput at h
    dsimp only at h
    split at h
    · cases h
    · rw [← Except.ok.inj h, preparer.length_raw]
      exact hstat
    · cases h
    · cases h
    · rw [← Except.ok.inj h]
    · cases h
    · rcases Place.bind_ok.mp h with ⟨_, _, hrest⟩
      rcases Place.bind_ok.mp hrest with ⟨_, _, hfile⟩
      rw [← Except.ok.inj hfile]
  · intro hnone
    rw [hprepared] at hnone
    cases hnone

theorem Place.prepared_of_preparerOf {key : Key} {preparer : Preparer}
    (h : place.preparerOf key = some preparer) :
    exists name, place.prepared key = some name ∧ place.registered name = some preparer :=
  Option.bind_eq_some_iff.mp h

theorem MapStore.input_plainly {key : Key} {raw : Bytes} {syscall : Syscall} {mtimeMs : Nat}
    {file : PlaceFile} (h : (MapStore.input place key raw syscall mtimeMs).2 = Except.ok file) :
    Plainly place key file := by
  unfold MapStore.input at h
  dsimp only at h
  cases hprepared : place.prepared key with
  | none =>
      rw [hprepared] at h
      rw [← Except.ok.inj h]
      exact ⟨rfl, fun _ => ⟨rfl, rfl⟩⟩
  | some name =>
      rw [hprepared] at h
      dsimp only at h
      cases hpreparer : place.preparerOf key with
      | none =>
          rw [hpreparer] at h
          cases h
      | some preparer =>
          rw [hpreparer] at h
          exact Place.prepareInput_plainly hprepared rfl h

theorem SabStore.input_plainly {key : Key} {raw : Bytes} {mtimeMs : Nat} {file : PlaceFile}
    (h : SabStore.input place key raw mtimeMs = Except.ok file) : Plainly place key file := by
  unfold SabStore.input at h
  dsimp only at h
  cases hpreparer : place.preparerOf key with
  | none =>
      rw [hpreparer] at h
      rw [← Except.ok.inj h]
      exact ⟨rfl, fun _ => ⟨rfl, rfl⟩⟩
  | some preparer =>
      rw [hpreparer] at h
      rcases Place.prepared_of_preparerOf hpreparer with ⟨name, hname, _⟩
      exact Place.prepareInput_plainly hname rfl h

/-!
# The map store
-/

namespace MapStore

variable {key : Key}

/-- What one mutation can do, and how it ends. -/
inductive Effect (place : Place) (files : Files) : Files × Except Refusal Unit -> Prop where
  | unchanged (result : Except Refusal Unit) : Effect place files (files, result)
  | removed (keys : List Key) :
      Effect place files (keys.foldl (remove place) files, Except.ok ())
  | published (key : Key) (raw : Bytes) (syscall : Syscall) (mtimeMs : Nat) (file : PlaceFile)
      (new : Files) :
      (input place key raw syscall mtimeMs).2 = Except.ok file ->
      publish place files key file = Except.ok new ->
      Effect place files (new, Except.ok ())
  | refused (source target : Key) (current : PlaceFile) (refusal : Refusal) :
      files.get (EntryKey.ofSource source) = some current -> source ≠ target ->
      Effect place files
        (overwrite files source current
          (input place target current.data Syscall.rename current.stat.mtimeMs).1,
          Except.error refusal)
  | renamed (source target : Key) (current file : PlaceFile) (new : Files) :
      files.get (EntryKey.ofSource source) = some current -> source ≠ target ->
      (input place target current.data Syscall.rename current.stat.mtimeMs).2 =
        Except.ok file ->
      publish place (overwrite files source current
        (input place target current.data Syscall.rename current.stat.mtimeMs).1) target file =
          Except.ok new ->
      Effect place files (remove place new source, Except.ok ())
  | moved (source target : Key) (moves : List (EntryKey × EntryKey)) :
      Plain source -> Plain target ->
      place.subtreeMoves files source target [] = Except.ok moves ->
      Effect place files
        ((moves.filterMap (fun move =>
          (files.get move.1).map (fun entry => (move.2, entry)))).foldl
            (fun files entry => files.set entry.1 entry.2)
            ((moves.map Prod.fst).foldl PlaceFiles.delete files), Except.ok ())

theorem publishRaw_effect (key : Key) (raw : Bytes) (now : Nat) :
    Effect place files (publishRaw place files key raw now) := by
  unfold publishRaw
  cases hinput : (input place key raw Syscall.openFile now).2 with
  | error refusal => exact Effect.unchanged _
  | ok file =>
      dsimp only
      cases hpublish : publish place files key file with
      | error refusal => exact Effect.unchanged _
      | ok new => exact Effect.published key raw Syscall.openFile now file new hinput hpublish

theorem write_effect (key : Key) (data : Bytes) (exclusive : Bool) (now : Nat) :
    Effect place files (write place files key data exclusive now) := by
  unfold write
  dsimp only
  cases (if exclusive = true then
      Place.checkExclusive files key (place.failOn Syscall.openFile key)
    else Except.ok ()) with
  | error refusal => exact Effect.unchanged _
  | ok _ =>
      cases Place.checkHierarchy files key (place.failOn Syscall.openFile key) [] with
      | error refusal => exact Effect.unchanged _
      | ok _ => exact publishRaw_effect key data now

theorem append_effect (key : Key) (data : Bytes) (now : Nat) :
    Effect place files (append place files key data now) := by
  unfold append
  dsimp only
  split_ifs
  · exact Effect.unchanged _
  · cases Place.checkHierarchy files key (place.failOn Syscall.openFile key) [] with
    | error refusal => exact Effect.unchanged _
    | ok _ => exact publishRaw_effect key _ now

theorem rm_effect (key : Key) (directory force recursive : Bool) :
    Effect place files (rm place files key directory force recursive) := by
  unfold rm
  dsimp only
  split_ifs
  · exact Effect.removed [key]
  · exact Effect.unchanged _
  · exact Effect.unchanged _
  · exact Effect.unchanged _
  · exact Effect.removed _

theorem renameFile_effect {current : PlaceFile}
    (hcurrent : files.get (EntryKey.ofSource source) = some current) (hne : source ≠ target) :
    Effect place files (renameFile place files source target current) := by
  unfold renameFile
  cases Place.checkHierarchy files target (place.failRename source target) [] with
  | error refusal => exact Effect.unchanged _
  | ok _ =>
      dsimp only
      cases hinput : (input place target current.data Syscall.rename
          current.stat.mtimeMs).2 with
      | error refusal => exact Effect.refused source target current refusal hcurrent hne
      | ok file =>
          dsimp only
          cases hpublish : publish place (overwrite files source current
              (input place target current.data Syscall.rename current.stat.mtimeMs).1)
              target file with
          | error refusal => exact Effect.refused source target current refusal hcurrent hne
          | ok new => exact Effect.renamed source target current file new hcurrent hne hinput hpublish

theorem moveTree_effect (hsource : Plain source) (htarget : Plain target) :
    Effect place files (moveTree place files source target) := by
  unfold moveTree
  cases hmoves : place.subtreeMoves files source target [] with
  | error refusal => exact Effect.unchanged _
  | ok moves =>
      dsimp only
      rw [← List.foldl_map]
      exact Effect.moved source target moves hsource htarget hmoves

theorem rename_effect (hsource : Plain source) (htarget : Plain target) (directory : Bool) :
    Effect place files (rename place files source target directory) := by
  unfold rename
  cases hcurrent : files.get (EntryKey.ofSource source) with
  | none =>
      dsimp only
      split_ifs
      · exact moveTree_effect hsource htarget
      · exact Effect.unchanged _
      · exact Effect.unchanged _
  | some current =>
      dsimp only
      split_ifs with hdirectory hprepared hsame
      · exact Effect.unchanged _
      · exact Effect.unchanged _
      · exact Effect.unchanged _
      · exact renameFile_effect hcurrent hsame

theorem run_effect (now : Nat) {op : Mutation} (hop : op.Canonical) :
    Effect place files (run place files now op) := by
  cases op with
  | write key data exclusive => exact write_effect key data exclusive now
  | append key data => exact append_effect key data now
  | unlink key directory =>
      show Effect place files (unlink place files key directory)
      unfold unlink
      dsimp only
      split_ifs
      · exact Effect.removed [key]
      · exact Effect.unchanged _
      · exact Effect.unchanged _
  | mkdir key recursive => exact Effect.unchanged _
  | rm key directory force recursive => exact rm_effect key directory force recursive
  | rename source target directory =>
      apply rename_effect
      · exact canonicalKey_plain (hop source (by simp [Mutation.keys]))
      · exact canonicalKey_plain (hop target (by simp [Mutation.keys]))

/-- A source that is published compiles, if it is a script. -/
theorem publish_script {input : PlaceFile} {new : Files}
    (h : publish place files key input = Except.ok new)
    (hscript : BytecodeDomain.script ∈ place.bytecodeDomains key) :
    exists data, place.createBytecode key input.data input.scriptOptions
      BytecodeDomain.script = some data := by
  rcases Place.bind_ok.mp h with ⟨codes, hcodes, _⟩
  rw [codesOf_eq] at hcodes
  split_ifs at hcodes with hbad
  cases hcreate : place.createBytecode key input.data input.scriptOptions
      BytecodeDomain.script with
  | some data => exact ⟨data, rfl⟩
  | none =>
      apply absurd _ hbad
      apply List.any_eq_true.mpr
      refine ⟨_, List.mem_map_of_mem hscript, ?_⟩
      rw [badScript, hcreate]
      rfl

/-- A publication stores every flavor of its input and no other. -/
theorem publish_published (hpaired : Paired codec place files) {input : PlaceFile} {new : Files}
    (h : publish place files key input = Except.ok new) :
    Published codec place key input files new := by
  have hbuilt : forall {k : EntryKey} {companion : PlaceFile},
      lastOf k ((compiled (place.bytecodeFor key input.data input.scriptOptions)).map
        (fun code => (code.1, codeFile input.stat.mtimeMs code.2))) = some companion ->
      exists domain data, k = bytecodeKey key domain ∧ domain ∈ place.bytecodeDomains key ∧
        place.createBytecode key input.data input.scriptOptions domain = some data ∧
          companion = codeFile input.stat.mtimeMs data := by
    intro k companion hlast
    rcases List.mem_map.mp (lastOf_mem hlast) with ⟨⟨ck, data⟩, hcode, heq⟩
    rcases mem_compiled.mp hcode with ⟨code, hc, hkey, hdata⟩
    have hk : ck = k := congrArg Prod.fst heq
    refine ⟨code.domain, data, ?_, (code_key hc).1, ?_, (congrArg Prod.snd heq).symm⟩
    · rw [← hk, ← hkey]
      exact (code_key hc).2.1
    · rw [← (code_key hc).2.2]
      exact hdata
  constructor
  · rw [get_publish_source h, if_pos rfl]
  · intro flavor companion hget
    rw [get_publish h] at hget
    rcases Option.or_eq_some_iff.mp hget with hlast | ⟨_, hold⟩
    · rcases hbuilt hlast with ⟨domain, data, hk, hdomain, hcreate, hcompanion⟩
      have hflavor : flavor = Flavor.bytecode domain :=
        Option.some.inj (congrArg EntryKey.flavor hk)
      rw [hflavor, hcompanion]
      exact Built.bytecode domain data hdomain hcreate
    · split_ifs at hold with hcompanion hself
      · cases congrArg EntryKey.flavor hself
      · rcases hpaired.built key flavor companion hold with ⟨file, _, hold⟩
        exact absurd hold.companion hcompanion
  · intro hscript
    rcases publish_script h hscript with ⟨data, hdata⟩
    have hlast : lastOf (bytecodeKey key BytecodeDomain.script)
        ((compiled (place.bytecodeFor key input.data input.scriptOptions)).map
          (fun code => (code.1, codeFile input.stat.mtimeMs code.2))) ≠ none := by
      intro hnone
      rw [lastOf_eq_none, List.map_map] at hnone
      apply hnone
      apply List.mem_map.mpr
      exact ⟨(_, data), mem_compiled.mpr ⟨_, List.mem_map_of_mem hscript, rfl, hdata⟩, rfl⟩
    rcases Option.ne_none_iff_exists'.mp hlast with ⟨companion, hsome⟩
    rw [get_publish h, hsome]
    exact ⟨companion, rfl⟩
  · intro other hne flavor
    have hlast : lastOf ⟨other, flavor⟩
        ((compiled (place.bytecodeFor key input.data input.scriptOptions)).map
          (fun code => (code.1, codeFile input.stat.mtimeMs code.2))) = none := by
      cases hlast : lastOf ⟨other, flavor⟩ _ with
      | none => rfl
      | some companion =>
          rcases hbuilt hlast with ⟨domain, data, hk, _⟩
          exact absurd (congrArg EntryKey.source hk) hne
    rw [get_publish h, hlast, if_neg, if_neg]
    · rfl
    · intro heq
      exact hne (congrArg EntryKey.source heq)
    · intro hcompanion
      exact hne (Place.source_of_companion hcompanion).1

theorem get_foldl_remove (keys : List Key) (files : Files) (k : EntryKey) :
    (keys.foldl (remove place) files).get k =
      if exists key, key ∈ keys ∧ (k = EntryKey.ofSource key ∨ k ∈ place.companions key)
      then none else files.get k := by
  induction keys generalizing files with
  | nil => simp
  | cons key rest ih =>
      rw [List.foldl_cons, ih, get_remove]
      by_cases hkey : k = EntryKey.ofSource key ∨ k ∈ place.companions key
      · rw [if_pos hkey, ite_self, if_pos ⟨key, List.mem_cons_self, hkey⟩]
      · rw [if_neg hkey]
        apply if_congr _ rfl rfl
        simp only [List.mem_cons, or_and_right, exists_or, exists_eq_left, hkey, false_or]

theorem Paired.foldl_remove (h : Paired codec place files) (keys : List Key) :
    Paired codec place (keys.foldl (remove place) files) :=
  h.removed (get_foldl_remove keys files)

end MapStore

/-- Preparers leave the buffers they are handed as they are. -/
def Place.Tidy (place : Place) : Prop :=
  forall name preparer, place.registered name = some preparer ->
    forall file raw, (preparer.prepare file raw).raw = raw

namespace MapStore

variable {key : Key}

theorem input_tidy (htidy : place.Tidy) (raw : Bytes) (syscall : Syscall) (mtimeMs : Nat) :
    (input place key raw syscall mtimeMs).1 = raw := by
  unfold input
  dsimp only
  cases place.prepared key with
  | none => rfl
  | some name =>
      cases hpreparer : place.preparerOf key with
      | none => rfl
      | some preparer =>
          rcases Place.prepared_of_preparerOf hpreparer with ⟨name, _, hname⟩
          exact htidy name preparer hname _ raw

theorem get_overwrite_same {current : PlaceFile}
    (hcurrent : files.get (EntryKey.ofSource source) = some current) (k : EntryKey) :
    (overwrite files source current current.data).get k = files.get k := by
  rw [get_overwrite]
  split_ifs with hk
  · rw [hk, hcurrent]
  · rfl

theorem Paired.effect (hext : NameExt place.fileExt) (htidy : place.Tidy)
    (hfiles : Sound place files) (h : Paired codec place files)
    {outcome : Files × Except Refusal Unit} (heffect : Effect place files outcome) :
    Paired codec place outcome.1 := by
  cases heffect with
  | unchanged result => exact h
  | removed keys => exact Paired.foldl_remove h keys
  | published key raw syscall mtimeMs file new hinput hpublish =>
      exact h.published (input_plainly hinput) (publish_published h hpublish)
  | refused source target current refusal hcurrent hne =>
      rw [input_tidy htidy]
      exact h.congr (get_overwrite_same hcurrent)
  | renamed source target current file new hcurrent hne hinput hpublish =>
      rw [input_tidy htidy] at hpublish
      have hsame := h.congr (get_overwrite_same hcurrent)
      exact Paired.foldl_remove
        (hsame.published (input_plainly hinput) (publish_published hsame hpublish)) [source]
  | moved source target moves hsource htarget hmoves =>
      rcases Place.subtreeMoves_ok hfiles.wellFormed hsource htarget hmoves with
        ⟨_, hnil⟩ | hmovable
      · rw [hnil]
        exact h
      · rcases Place.subtreeMoves_inhabited hfiles.wellFormed hsource hmoves with
          ⟨key, hkey, hbelow⟩
        have hapart := hmovable.apart hkey hbelow
        exact Paired.rekeyed hext faithful_id hmovable
          (moveTree_rekeyed hmovable hfiles.derived hapart) h

theorem Reachable.paired (hext : NameExt place.fileExt) (htidy : place.Tidy)
    (h : Reachable place PlaceFiles.empty files) : Paired codec place files := by
  induction h with
  | initial => exact Paired.empty
  | run now op hreach hop ih =>
      exact Paired.effect hext htidy hreach.sound ih (run_effect now hop)

end MapStore

/-!
# The shared store
-/

namespace SabStore

variable {key : Key}

theorem mem_bytecodeChanges {env : Env} {mtimeMs : Nat} {codes : List Place.Code}
    {changes : List Change} (h : bytecodeChanges env mtimeMs codes = Except.ok changes)
    {change : Change} : change ∈ changes <-> exists code, code ∈ codes ∧
      change = (code.key, (code.data.filter (fun _ => env.fits code.key)).map
        (MapStore.codeFile mtimeMs)) := by
  induction codes generalizing changes with
  | nil =>
      rw [bytecodeChanges, Except.ok.injEq] at h
      rw [← h]
      simp
  | cons code rest ih =>
      unfold bytecodeChanges at h
      dsimp only at h
      split_ifs at h with hscript
      rcases Place.bind_ok.mp h with ⟨more, hmore, heq⟩
      rw [← Except.ok.inj heq, List.mem_cons, ih hmore]
      simp only [List.mem_cons, or_and_right, exists_or, exists_eq_left]

theorem bytecodeChanges_script {env : Env} {mtimeMs : Nat} {codes : List Place.Code}
    {changes : List Change} (h : bytecodeChanges env mtimeMs codes = Except.ok changes)
    {code : Place.Code} (hcode : code ∈ codes) (hscript : code.domain = BytecodeDomain.script) :
    exists data, code.data.filter (fun _ => env.fits code.key) = some data := by
  induction codes generalizing changes with
  | nil => cases hcode
  | cons first rest ih =>
      unfold bytecodeChanges at h
      dsimp only at h
      split_ifs at h with hbad
      rcases Place.bind_ok.mp h with ⟨more, hmore, _⟩
      rcases List.mem_cons.mp hcode with heq | hrest
      · rw [← heq] at hbad
        rw [not_and_or, Option.isNone_iff_eq_none] at hbad
        rcases hbad with hsome | hdomain
        · exact Option.ne_none_iff_exists'.mp hsome
        · exact absurd hscript hdomain
      · exact ih hmore hrest

/-- The changes of one stored source: itself, and one for each of its flavors. -/
theorem mem_storeShared {input : PlaceFile} {env : Env} {changes : List Change}
    (h : storeShared place key input env = Except.ok changes) :
    exists codes, bytecodeChanges env input.stat.mtimeMs
        (place.bytecodeFor key input.data input.scriptOptions) = Except.ok codes ∧
      forall change, change ∈ changes <-> change = (EntryKey.ofSource key, some input) ∨
        change ∈ codes ∨ change ∈ compressedChanges place key input env := by
  unfold storeShared at h
  split_ifs at h with hfits
  rcases Place.bind_ok.mp h with ⟨codes, hcodes, heq⟩
  refine ⟨codes, hcodes, ?_⟩
  intro change
  rw [← Except.ok.inj heq, List.mem_cons, List.mem_append, List.mem_filter, List.mem_filter,
    ← and_or_left, List.mem_append]
  cases hchange : change.2 <;> simp

theorem compressedChanges_keys (input : PlaceFile) (env : Env) :
    (compressedChanges place key input env).map Prod.fst =
      if place.config.compressible place.fileExt key then
        place.config.codecs.map (fun codec => compressedKey key codec.encoding)
      else [] := by
  unfold compressedChanges
  split_ifs
  · rw [List.map_map]
    rfl
  · rfl

/-- Every flavor of a source is published or dropped with it. -/
theorem storeShared_covers {input : PlaceFile} {env : Env} {changes : List Change}
    (h : storeShared place key input env = Except.ok changes) {flavor : Flavor}
    (hflavor : flavor ∈ place.config.flavors place.fileExt key) :
    exists change, (⟨key, some flavor⟩, change) ∈ changes := by
  rcases mem_storeShared h with ⟨codes, hcodes, hmem⟩
  rcases List.mem_append.mp hflavor with hbytecode | hcompressed
  · rcases List.mem_map.mp hbytecode with ⟨domain, hdomain, heq⟩
    rw [← heq]
    exact ⟨_, (hmem _).mpr (Or.inr (Or.inl
      ((mem_bytecodeChanges hcodes).mpr ⟨_, List.mem_map_of_mem hdomain, rfl⟩)))⟩
  · split_ifs at hcompressed with hcompressible
    · rcases List.mem_map.mp hcompressed with ⟨codec, hcodec, heq⟩
      have hkey : compressedKey key codec.encoding ∈
          (compressedChanges place key input env).map Prod.fst := by
        rw [compressedChanges_keys, if_pos hcompressible]
        exact List.mem_map_of_mem hcodec
      rcases List.mem_map.mp hkey with ⟨change, hchange, hfst⟩
      rw [← heq]
      exists change.2
      rw [← compressedKey, ← hfst]
      exact (hmem change).mpr (Or.inr (Or.inr hchange))
    · cases hcompressed

/-- What is stored beside a source was built of it. -/
theorem storeShared_built {input : PlaceFile} {env : Env} {changes : List Change}
    (hcodec : forall encoding data, env.encode encoding = some data ->
      codec encoding input.data data)
    (h : storeShared place key input env = Except.ok changes) {flavor : Flavor}
    {companion : PlaceFile} (hchange : (⟨key, some flavor⟩, some companion) ∈ changes) :
    Built codec place key input flavor companion := by
  rcases mem_storeShared h with ⟨codes, hcodes, hmem⟩
  rcases (hmem _).mp hchange with hself | hcode | hcompressed
  · cases congrArg (fun change => change.1.flavor) hself
  · rcases (mem_bytecodeChanges hcodes).mp hcode with ⟨code, hc, heq⟩
    rcases MapStore.code_key hc with ⟨hdomain, hkey, hdata⟩
    have hflavor : flavor = Flavor.bytecode code.domain := by
      rw [hkey] at heq
      exact Option.some.inj (congrArg (fun change => change.1.flavor) heq)
    rcases Option.map_eq_some_iff.mp (congrArg Prod.snd heq).symm with ⟨data, hplaced, hfile⟩
    rw [hflavor, ← hfile]
    apply Built.bytecode code.domain data hdomain
    rw [← hdata]
    exact (Option.filter_eq_some_iff.mp hplaced).1
  · unfold compressedChanges at hcompressed
    split_ifs at hcompressed with hcompressible
    · rcases List.mem_map.mp hcompressed with ⟨settings, hsettings, heq⟩
      have hflavor : Flavor.compressed settings.encoding = flavor :=
        Option.some.inj (congrArg (fun change => change.1.flavor) heq)
      rcases Option.map_eq_some_iff.mp (congrArg Prod.snd heq) with ⟨data, hplaced, hfile⟩
      rw [← hflavor, ← hfile]
      apply Built.compressed
      · apply List.mem_append_right
        rw [if_pos hcompressible]
        exact List.mem_map_of_mem hsettings
      · exact hcodec _ _ (Option.filter_eq_some_iff.mp hplaced).1
    · cases hcompressed

theorem get_flush_append (files : Files) (changes more : List Change) (k : EntryKey) :
    (flush files (changes ++ more)).get k = (flush (flush files changes) more).get k := by
  rw [get_flush, get_flush, get_flush, lastOf_append]
  cases lastOf k more with
  | none => rfl
  | some change => rfl

theorem storeShared_published (hpaired : Paired codec place files) {input : PlaceFile} {env : Env}
    {changes : List Change}
    (hcodec : forall encoding data, env.encode encoding = some data ->
      codec encoding input.data data)
    (h : storeShared place key input env = Except.ok changes) :
    Published codec place key input files (flush files changes) := by
  constructor
  · rw [get_flush]
    have hlast := @lastOf_publication_source place key input [] env changes h key
    rw [if_pos rfl] at hlast
    have hchanges : unstaged place [] ++ changes = changes := rfl
    rw [hchanges] at hlast
    rw [hlast]
  · intro flavor companion hget
    rw [get_flush] at hget
    cases hlast : lastOf ⟨key, some flavor⟩ changes with
    | some change =>
        rw [hlast] at hget
        have hchange : change = some companion := hget
        rw [hchange] at hlast
        exact storeShared_built hcodec h (lastOf_mem hlast)
    | none =>
        rw [hlast] at hget
        rcases hpaired.built key flavor companion hget with ⟨file, _, hbuilt⟩
        rcases storeShared_covers h hbuilt.flavor with ⟨change, hchange⟩
        exact absurd (List.mem_map_of_mem hchange) (lastOf_eq_none.mp hlast)
  · intro hscript
    rcases mem_storeShared h with ⟨codes, hcodes, hmem⟩
    rw [get_flush]
    cases hlast : lastOf (bytecodeKey key BytecodeDomain.script) changes with
    | some change =>
        rcases (hmem _).mp (lastOf_mem hlast) with hself | hcode | hcompressed
        · cases congrArg (fun change => change.1.flavor) hself
        · rcases (mem_bytecodeChanges hcodes).mp hcode with ⟨code, hc, heq⟩
          rcases MapStore.code_key hc with ⟨_, hkey, _⟩
          have hdomain : code.domain = BytecodeDomain.script := by
            rw [hkey] at heq
            exact (Flavor.bytecode.inj
              (Option.some.inj (congrArg (fun change => change.1.flavor) heq))).symm
          rcases bytecodeChanges_script hcodes hc hdomain with ⟨data, hplaced⟩
          have hchange : change = _ := congrArg Prod.snd heq
          rw [hplaced] at hchange
          exact ⟨_, hchange⟩
        · unfold compressedChanges at hcompressed
          split_ifs at hcompressed
          · rcases List.mem_map.mp hcompressed with ⟨settings, _, heq⟩
            cases congrArg (fun change => change.1.flavor) heq
          · cases hcompressed
    | none =>
        have hflavor : Flavor.bytecode BytecodeDomain.script ∈
            place.config.flavors place.fileExt key :=
          List.mem_append_left _ (List.mem_map_of_mem hscript)
        rcases storeShared_covers h hflavor with ⟨change, hchange⟩
        exact absurd (List.mem_map_of_mem hchange) (lastOf_eq_none.mp hlast)
  · intro other hne flavor
    rw [get_flush]
    cases hlast : lastOf ⟨other, flavor⟩ changes with
    | none => rfl
    | some change =>
        rcases storeShared_ok h with ⟨companions, hchanges, hsource⟩
        rw [hchanges] at hlast
        rcases List.mem_cons.mp (lastOf_mem hlast) with hself | hcompanion
        · exact absurd (congrArg (fun change => change.1.source) hself) hne
        · exact absurd (hsource _ hcompanion).1 hne

theorem Paired.unstaged (h : Paired codec place files) (keys : List Key) :
    Paired codec place (flush files (unstaged place keys)) := by
  apply @Paired.removed codec place files _ h keys
  intro k
  rw [get_flush, lastOf_unstaged]
  split_ifs <;> rfl

theorem Paired.publication (h : Paired codec place files) {input : PlaceFile}
    (hinput : Plainly place key input) {removed : List Key} {env : Env} {changes : List Change}
    (hcodec : forall encoding data, env.encode encoding = some data ->
      codec encoding input.data data)
    (hstore : storeShared place key input env = Except.ok changes) :
    Paired codec place (flush files (SabStore.unstaged place removed ++ changes)) := by
  have hremoved := Paired.unstaged h removed
  apply (hremoved.published hinput (storeShared_published hremoved hcodec hstore)).congr
  exact get_flush_append files _ _

/-- What a started publication stores came through the pipeline. -/
theorem start_plainly {creating : List Key} {locked : Bool} {now : Nat} {op : Mutation}
    {input' : PlaceFile} {removed : List Key}
    (h : start place files creating locked now op =
      Except.ok (Plan.publish target (Except.ok input') removed)) :
    Plainly place target input' := by
  cases op with
  | write key data exclusive =>
      injection (write_ok h).2.2 with htarget hinput _
      rw [htarget]
      exact input_plainly hinput.symm
  | append key data =>
      injection (append_ok h).2.2 with htarget hinput _
      rw [htarget]
      exact input_plainly hinput.symm
  | unlink key directory => cases unlink_ok h
  | mkdir key recursive => cases (mkdir_ok h).2
  | rm key directory force recursive =>
      rcases rm_ok h with ⟨keys, hplan⟩
      cases hplan
  | rename source target' directory =>
      rcases rename_ok h with ⟨_, _, _, moves, _, hplan⟩ | ⟨current, _, _, _, _, hplan⟩
      · cases hplan
      · injection hplan with htarget hinput _
        rw [htarget]
        exact input_plainly hinput.symm

end SabStore

namespace SabPlace

/-- What the codecs answered to a commit is what they make of the stored source. -/
def Answers (codec : Encoding -> Bytes -> Bytes -> Prop) (s : SabPlace) (c : Committed) : Prop :=
  forall task target input removed now, s.tasks[c.task]? = some task ->
    task.status = Status.storing target input removed now ->
    forall encoding data, c.env.encode encoding = some data -> codec encoding input.data data

/-- The runs whose codecs answer as codecs do. -/
inductive Coded (codec : Encoding -> Bytes -> Bytes -> Prop) (place : Place) (files : Files) :
    SabPlace -> Prop where
  | initial : Coded codec place files (SabPlace.initial files)
  | step : Coded codec place files s -> Step place s s' ->
      (forall c, s'.log = s.log ++ [c] -> Answers codec s c) -> Coded codec place files s'

variable {s s' : SabPlace}

theorem Coded.reachable (h : Coded codec place files s) : Reachable place files s := by
  induction h with
  | initial => exact Reachable.initial
  | step hcoded hstep hanswers ih => exact ih.step hstep

theorem Paired.start (h : Paired codec place s.files) (id : Nat) (task : MutationTask)
    (now : Nat) : Paired codec place (s.start place id task now).files := by
  unfold SabPlace.start
  cases hstart : SabStore.start place s.files s.creating task.queue.keys.isSome now task.op with
  | error refusal => exact h
  | ok plan =>
      cases plan with
      | now changes =>
          rcases SabStore.start_now hstart with ⟨keys, hchanges, _⟩
          rw [hchanges]
          exact SabStore.Paired.unstaged h keys
      | publish target input removed =>
          cases input with
          | error refusal => exact h
          | ok input => exact h
      | move moves => exact h

theorem Paired.step (hext : NameExt place.fileExt) (hreach : Reachable place PlaceFiles.empty s)
    (h : Paired codec place s.files) (hstep : Step place s s')
    (hanswers : forall c, s'.log = s.log ++ [c] -> Answers codec s c) :
    Paired codec place s'.files := by
  have hoverlap := hreach.overlap MapStore.Kept.empty
  cases hstep with
  | request op hop => exact h
  | start id task now ht hqueued hprior => exact Paired.start h id task now
  | copy id task copies move rest now file ht hstatus hfile => exact h
  | commit id task target input removed env changes ht hstatus hstore =>
      have hvalid := hoverlap.valid id task ht
      rw [hstatus] at hvalid
      exact SabStore.Paired.publication h (SabStore.start_plainly hvalid.2)
        (hanswers _ rfl task target input removed env.now ht hstatus) hstore
  | commitTree id task copies now ht hstatus =>
      have hvalid := hoverlap.valid id task ht
      rw [hstatus] at hvalid
      rcases hvalid with ⟨moves, hstart, hcopies⟩
      rw [List.append_nil] at hstart
      rcases SabStore.start_move hstart with ⟨_, source, target, directory, hop, hmoves⟩
      have hsource : Plain source := hoverlap.plain_keys ht (by rw [hop]; simp [Mutation.keys])
      have htarget : Plain target := hoverlap.plain_keys ht (by rw [hop]; simp [Mutation.keys])
      have hsound := hreach.sound
      rcases Place.subtreeMoves_ok hsound.wellFormed hsource htarget hmoves with
        ⟨_, hnil⟩ | hmovable
      · show Paired codec place (SabStore.flush s.files (SabStore.treeChanges copies))
        rw [SabStore.copiesOf_eq hcopies, hnil]
        exact h
      · rcases Place.subtreeMoves_inhabited hsound.wellFormed hsource hmoves with
          ⟨key, hkey, hbelow⟩
        have hapart := hmovable.apart hkey hbelow
        exact Paired.rekeyed hext faithful_copyOf hmovable
          (SabStore.moveTree_rekeyed hmovable hsound.derived hapart hcopies) h
  | fail id task target input removed now refusal ht hstatus => exact h
  | failTree id task copies rest now refusal ht hstatus => exact h
  | settle id task creating result ht hstatus => exact h
  | release id task result ht hstatus => exact h

theorem Coded.paired (hext : NameExt place.fileExt)
    (h : Coded codec place PlaceFiles.empty s) : Paired codec place s.files := by
  induction h with
  | initial => exact Paired.empty
  | step hcoded hstep hanswers ih => exact Paired.step hext hcoded.reachable ih hstep hanswers

end SabPlace

end SharedMemoryFs
