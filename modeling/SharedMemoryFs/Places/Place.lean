import SharedMemoryFs.Cache.Filesystem

/-!
# Places

The resolved configuration of a place, as far as publication and mutation read
it, and the questions asked of it.  The extension of a key is computed by a
library outside the repository and is a parameter.
-/

namespace SharedMemoryFs

open Foundation

structure RequireConfig where
  ext : List Ext
  compile : Bool
deriving DecidableEq, Repr

structure ScriptConfig where
  ext : List Ext
  compile : Bool
deriving DecidableEq, Repr

structure Codec where
  encoding : Encoding
  level : Option Int
deriving DecidableEq, Repr

structure CompressConfig where
  codecs : List Codec
  ext : Option (List Ext)
  retainRaw : Bool
deriving DecidableEq, Repr

structure FsConfig where
  ext : Option (List Ext)
  script : Option ScriptConfig
  compress : Option CompressConfig
deriving DecidableEq, Repr

structure PlaceConfig where
  name : PlaceName
  maxFileSize : Nat
  require : Option RequireConfig
  fs : Option FsConfig
  prepare : List (Ext × String)
deriving DecidableEq, Repr

/-- Extensions Node's CommonJS loader compiles. -/
def requireExt : List Ext := ["js", "cjs"]

namespace PlaceConfig

variable (fileExt : Key -> Ext) (place : PlaceConfig) (key : Key)

def visibleRequire : Bool :=
  place.require.any (fun settings => settings.ext.contains (fileExt key))

def visibleFs : Bool :=
  place.fs.any (fun settings => settings.ext.all (fun ext => ext.contains (fileExt key)))

/-- The {lit}`fs.script` pipeline applies to a source key. -/
def scripted : Bool :=
  (place.fs.bind FsConfig.script).any (fun script => script.ext.contains (fileExt key))

/-- The preparer that owns the content of a source key. -/
def prepared : Option String := place.prepare.lookup (fileExt key)

/-- Every companion key this place may hold for a source key. -/
def companions : List EntryKey :=
  (if place.require.any RequireConfig.compile then
      [bytecodeKey key BytecodeDomain.require] else []) ++
    (if (place.fs.bind FsConfig.script).any ScriptConfig.compile then
      [bytecodeKey key BytecodeDomain.script] else []) ++
    ((place.fs.bind FsConfig.compress).elim [] CompressConfig.codecs).map
      (fun codec => compressedKey key codec.encoding)

/-- The bytecode flavors a key gets in a place, in a stable order. -/
def bytecodeDomains : List BytecodeDomain :=
  (if place.require.any RequireConfig.compile ∧ fileExt key ∈ requireExt ∧
      place.visibleRequire fileExt key then
      [BytecodeDomain.require] else []) ++
    (if (place.fs.bind FsConfig.script).any ScriptConfig.compile ∧
      place.scripted fileExt key then
      [BytecodeDomain.script] else [])

def compressible : Bool :=
  (place.fs.bind FsConfig.compress).any (fun compress =>
    place.visibleFs fileExt key &&
      compress.ext.all (fun ext => ext.contains (fileExt key)))

def codecs : List Codec :=
  (place.fs.bind FsConfig.compress).elim [] CompressConfig.codecs

/-- {lit}`#allocOptions`.  With {lit}`retainRaw: false` the source of a
compressed file lives on disk only. -/
def allocOptions (input : FileInput) : AllocOptions :=
  { maxFileSize := some place.maxFileSize
    fallback := input.path.isSome
    onDisk :=
      (place.fs.bind FsConfig.compress).any (fun compress => !compress.retainRaw) &&
        place.compressible fileExt key }

/-- The flavors one publication of a key builds or drops. -/
def flavors : List Flavor :=
  (place.bytecodeDomains fileExt key).map Flavor.bytecode ++
    if place.compressible fileExt key then
      place.codecs.map (fun codec => Flavor.compressed codec.encoding)
    else []

end PlaceConfig

/-- What a publication builds is among what a removal drops. -/
theorem flavor_mem_companions {fileExt : Key -> Ext} {place : PlaceConfig} {key : Key}
    {flavor : Flavor} (h : flavor ∈ place.flavors fileExt key) :
    (⟨key, some flavor⟩ : EntryKey) ∈ place.companions key := by
  unfold PlaceConfig.flavors PlaceConfig.bytecodeDomains at h
  unfold PlaceConfig.companions
  rcases List.mem_append.mp h with hbytecode | hcompressed
  · rcases List.mem_map.mp hbytecode with ⟨domain, hdomain, hflavor⟩
    rw [← hflavor]
    refine List.mem_append_left _ ?_
    rcases List.mem_append.mp hdomain with hrequire | hscript
    · refine List.mem_append_left _ ?_
      split_ifs at hrequire with hcompile
      · rw [if_pos hcompile.1, List.mem_singleton.mp hrequire]
        exact List.mem_singleton.mpr rfl
      · cases hrequire
    · refine List.mem_append_right _ ?_
      split_ifs at hscript with hcompile
      · rw [if_pos hcompile.1, List.mem_singleton.mp hscript]
        exact List.mem_singleton.mpr rfl
      · cases hscript
  · refine List.mem_append_right _ ?_
    split_ifs at hcompressed with hcompressible
    · rcases List.mem_map.mp hcompressed with ⟨codec, hcodec, hflavor⟩
      rw [← hflavor]
      exact List.mem_map_of_mem hcodec
    · cases hcompressed

/-- Every companion key of a source is a companion of that source. -/
theorem source_of_mem_companions {place : PlaceConfig} {key : Key} {companion : EntryKey}
    (h : companion ∈ place.companions key) :
    companion.source = key ∧ companion.flavor ≠ none := by
  unfold PlaceConfig.companions at h
  rcases List.mem_append.mp h with hbytecode | hcompressed
  · rcases List.mem_append.mp hbytecode with hrequire | hscript
    · split_ifs at hrequire
      · rw [List.mem_singleton.mp hrequire]
        exact ⟨rfl, fun h => by cases h⟩
      · cases hrequire
    · split_ifs at hscript
      · rw [List.mem_singleton.mp hscript]
        exact ⟨rfl, fun h => by cases h⟩
      · cases hscript
  · rcases List.mem_map.mp hcompressed with ⟨codec, _, heq⟩
    rw [← heq]
    exact ⟨rfl, fun h => by cases h⟩

end SharedMemoryFs
