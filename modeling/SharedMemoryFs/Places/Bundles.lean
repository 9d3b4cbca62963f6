import SharedMemoryFs.Places.Pairing

/-!
# Bundles and representations

What the facade of a virtual place answers about the companions of a file: the bundle of a
script, the compressed representations, the cached data of a module.  All of them are of the
very version a plain read returns.
-/

namespace SharedMemoryFs

open Foundation PlaceFiles

/-- Everything a script is built from. -/
structure Bundle where
  source : Bytes
  cachedData : Option Bytes
  scriptOptions : Option Cloneable
  metadata : Option Cloneable
deriving DecidableEq

/-- An error of a read, which names no path. -/
structure ReadError where
  code : ErrorCode
  detail : String
deriving DecidableEq

namespace VirtualFs

variable (place : Place) (files : Files) (key : Key)

/-- {lit}`Place.entry`; companions are never returned. -/
def entry : Option PlaceFile :=
  if sep ∈ key then none
  else
    match files.get (EntryKey.ofSource key) with
    | some file => some file
    | none =>
        if key.head? = some slash then none
        else files.get (EntryKey.ofSource (slash :: key))

/-- {lit}`Place.keyOf`. -/
def keyOf : Key := if files.hasSource key ∨ key.head? = some slash then key else slash :: key

/-- {lit}`#file`; a virtual place has no disk territory. -/
def file : Option PlaceFile :=
  (entry files key).filter (fun _ => !decide (sep ∈ keyOf files key) &&
    place.config.visibleFs place.fileExt (keyOf files key))

def readFile : Option Bytes := (file place files key).map PlaceFile.data

def stat : Option Stat := (file place files key).map PlaceFile.stat

/-- {lit}`Place.bytecode`. -/
def bytecode (domain : BytecodeDomain) : Option Bytes :=
  (files.get (bytecodeKey key domain)).map PlaceFile.data

def script : Except ReadError (Option Bundle) :=
  if (place.config.fs.bind FsConfig.script).isNone then
    Except.error { code := ErrorCode.enotsup, detail := "no fs.script domain" }
  else
    match file place files key with
    | none => Except.ok none
    | some found =>
        if place.config.scripted place.fileExt (keyOf files key) then
          Except.ok (some
            { source := found.data
              cachedData := bytecode files (keyOf files key) BytecodeDomain.script
              scriptOptions := found.scriptOptions
              metadata := found.metadata })
        else Except.ok none

/-- {lit}`#compressed`. -/
def compressed (encoding : Encoding) : Except ReadError (Option PlaceFile) :=
  if place.config.codecs.any (fun codec => codec.encoding = encoding) then
    match file place files key with
    | none => Except.ok none
    | some _ => Except.ok (files.get (compressedKey (keyOf files key) encoding))
  else
    Except.error
      { code := ErrorCode.enotsup
        detail := "encoding \"" ++ encoding.name ++ "\" is not configured" }

def readFileCompressed (encoding : Encoding) : Except ReadError (Option Bytes) :=
  (compressed place files key encoding).map (Option.map PlaceFile.data)

def statCompressed (encoding : Encoding) : Except ReadError (Option Stat) :=
  (compressed place files key encoding).map (Option.map PlaceFile.stat)

/-!
# One version
-/

variable {place} {files} {key}

/-- What a read finds is published under the canonical key. -/
theorem get_keyOf {found : PlaceFile} (h : file place files key = some found) :
    files.get (EntryKey.ofSource (keyOf files key)) = some found := by
  have hentry := (Option.filter_eq_some_iff.mp h).1
  unfold entry at hentry
  unfold keyOf
  cases hget : files.get (EntryKey.ofSource key) with
  | some file =>
      rw [hget] at hentry
      dsimp only at hentry
      split_ifs at hentry
      rw [if_pos (Or.inl (hasSource_iff.mpr ⟨file, hget⟩)), hget]
      exact hentry
  | none =>
      rw [hget] at hentry
      dsimp only at hentry
      split_ifs at hentry with hsep hslash
      have hnew : ¬ (files.hasSource key = true ∨ key.head? = some slash) := by
        rw [hasSource_eq_false.mpr hget]
        simp [hslash]
      rw [if_neg hnew]
      exact hentry

theorem script_ok {bundle : Bundle} (h : script place files key = Except.ok (some bundle)) :
    exists found, file place files key = some found ∧
      place.config.scripted place.fileExt (keyOf files key) = true ∧
      bundle =
        { source := found.data
          cachedData := bytecode files (keyOf files key) BytecodeDomain.script
          scriptOptions := found.scriptOptions
          metadata := found.metadata } := by
  unfold script at h
  cases hnone : (place.config.fs.bind FsConfig.script).isNone with
  | true =>
      rw [hnone] at h
      cases h
  | false =>
      rw [hnone, if_neg Bool.false_ne_true] at h
      cases hfile : file place files key with
      | none =>
          rw [hfile] at h
          cases h
      | some found =>
          rw [hfile] at h
          cases hcovered : place.config.scripted place.fileExt (keyOf files key) with
          | true =>
              rw [hcovered] at h
              exact ⟨found, rfl, rfl, (Option.some.inj (Except.ok.inj h)).symm⟩
          | false =>
              rw [hcovered] at h
              cases h

end VirtualFs

/-- What a facade answers about one file is about one version of it. -/
structure Coherent (codec : Encoding -> Bytes -> Bytes -> Prop) (place : Place)
    (files : Files) : Prop where
  script : forall key bundle, VirtualFs.script place files key = Except.ok (some bundle) ->
    VirtualFs.readFile place files key = some bundle.source ∧
      if (place.config.fs.bind FsConfig.script).any ScriptConfig.compile then
        exists data, bundle.cachedData = some data ∧
          place.compileScript bundle.scriptOptions bundle.source = some data
      else bundle.cachedData = none
  compressed : forall key encoding packed,
    VirtualFs.compressed place files key encoding = Except.ok (some packed) ->
    exists source, VirtualFs.readFile place files key = some source ∧
      codec encoding source packed.data ∧
      packed.stat.size = packed.data.length ∧ packed.stat.encoding = some encoding ∧
      packed.stat.sourceSize = some source.length ∧
      VirtualFs.stat place files key =
        some { size := source.length, mtimeMs := packed.stat.mtimeMs }
  require : forall key data,
    VirtualFs.bytecode files key BytecodeDomain.require = some data ->
    exists file, files.get (EntryKey.ofSource key) = some file ∧
      place.compileRequire (place.pathOf key) file.data = some data

theorem Paired.cached {codec : Encoding -> Bytes -> Bytes -> Prop} {place : Place}
    {files : Files} (h : Paired codec place files) {key : Key} {found : PlaceFile}
    (hget : files.get (EntryKey.ofSource key) = some found)
    (hcovered : place.config.scripted place.fileExt key = true) :
    if (place.config.fs.bind FsConfig.script).any ScriptConfig.compile then
      exists data, VirtualFs.bytecode files key BytecodeDomain.script = some data ∧
        place.compileScript found.scriptOptions found.data = some data
    else VirtualFs.bytecode files key BytecodeDomain.script = none := by
  have hbuilt := h.built key (Flavor.bytecode BytecodeDomain.script)
  unfold VirtualFs.bytecode
  split_ifs with hcompile
  · have hdomain : BytecodeDomain.script ∈ place.bytecodeDomains key := by
      apply List.mem_append_right
      rw [if_pos ⟨hcompile, hcovered⟩]
      exact List.mem_singleton.mpr rfl
    rcases h.scripts _ found hget hdomain with ⟨code, hcode⟩
    rcases hbuilt code hcode with ⟨file, hsame, hcode'⟩
    cases hget.symm.trans hsame
    rw [hcode]
    cases hcode' with
    | bytecode domain data _ hdata => exact ⟨data, rfl, hdata⟩
  · cases hcode : files.get (bytecodeKey key BytecodeDomain.script) with
    | none => rfl
    | some code =>
        rcases hbuilt code hcode with ⟨file, _, hcode'⟩
        cases hcode' with
        | bytecode domain data hdomain hdata =>
            rcases List.mem_append.mp hdomain with hrequire | hscript
            · split_ifs at hrequire
              · cases List.mem_singleton.mp hrequire
              · cases hrequire
            · rw [if_neg (fun hboth => hcompile hboth.1)] at hscript
              cases hscript

theorem Paired.coherent {codec : Encoding -> Bytes -> Bytes -> Prop} {place : Place}
    {files : Files} (h : Paired codec place files) : Coherent codec place files := by
  constructor
  · intro key bundle hscript
    rcases VirtualFs.script_ok hscript with ⟨found, hfile, hcovered, hbundle⟩
    rw [hbundle]
    constructor
    · unfold VirtualFs.readFile
      rw [hfile]
      rfl
    · exact h.cached (VirtualFs.get_keyOf hfile) hcovered
  · intro key encoding packed hcompressed
    unfold VirtualFs.compressed at hcompressed
    split_ifs at hcompressed with hconfigured
    cases hfile : VirtualFs.file place files key with
    | none =>
        rw [hfile] at hcompressed
        cases hcompressed
    | some found =>
        rw [hfile] at hcompressed
        have hget := VirtualFs.get_keyOf hfile
        rcases h.built _ _ packed (Except.ok.inj hcompressed) with ⟨file, hsame, hbuilt⟩
        cases hget.symm.trans hsame
        have hstat := (h.plainly _ found hget).stat
        have hsize : found.stat.size = found.data.length := by
          rw [hstat]
        unfold VirtualFs.readFile VirtualFs.stat
        rw [hfile]
        cases hbuilt with
        | compressed encoding data hflavor hcodec =>
            exact ⟨found.data, rfl, hcodec, rfl, rfl, congrArg some hsize, congrArg some hstat⟩
  · intro key data hdata
    rcases Option.map_eq_some_iff.mp hdata with ⟨code, hcode, hsame⟩
    rcases h.built _ _ code hcode with ⟨file, hfile, hbuilt⟩
    cases hbuilt with
    | bytecode domain data' hdomain hcreate =>
        exact ⟨file, hfile, hcreate.trans (congrArg some hsame)⟩

/-- Bundles, compressed representations and cached data of modules are of the version a read
returns: in every state of a shared place however its mutations overlap, and in every state
of a map place whose preparers do not write into the buffers they are handed. -/
theorem reads_coherent (codec : Encoding -> Bytes -> Bytes -> Prop) (place : Place)
    (hext : NameExt place.fileExt) :
    (forall s, SabPlace.Coded codec place PlaceFiles.empty s -> Coherent codec place s.files) ∧
    (place.Tidy -> forall files, MapStore.Reachable place PlaceFiles.empty files ->
      Coherent codec place files) := by
  constructor
  · exact fun s h => (h.paired hext).coherent
  · exact fun htidy files h => (h.paired hext htidy).coherent

/-!
# An example bundle
-/

def scriptPlace : Place :=
  { SabPlace.demoPlace with
    config :=
      { SabPlace.demoConfig with
        fs := some { ext := none, script := some { ext := ["js"], compile := true }, compress := none } }
    fileExt := Metautil.fileExt
    compileScript := fun _ source => some (0 :: source) }

def scriptFiles : Files :=
  (MapStore.run scriptPlace PlaceFiles.empty 0 (Mutation.write "/a.js".toList [1] false)).1

theorem reads_coherent_demo :
    VirtualFs.script scriptPlace scriptFiles "/a.js".toList =
        Except.ok (some
          { source := [1], cachedData := some [0, 1], scriptOptions := none, metadata := none }) ∧
      VirtualFs.readFile scriptPlace scriptFiles "/a.js".toList = some [1] := by
  have hscript : VirtualFs.script scriptPlace scriptFiles "/a.js".toList =
      Except.ok (some
        { source := [1], cachedData := some [0, 1], scriptOptions := none, metadata := none }) := by
    decide +kernel
  have hreach : MapStore.Reachable scriptPlace PlaceFiles.empty scriptFiles :=
    MapStore.Reachable.initial.run 0 _ (by decide +kernel)
  have htidy : scriptPlace.Tidy := by
    intro name preparer hname
    cases hname
  exact ⟨hscript, (((reads_coherent (fun _ _ _ => True) scriptPlace fileExt_nameExt).2 htidy
    scriptFiles hreach).script _ _ hscript).1⟩

end SharedMemoryFs
