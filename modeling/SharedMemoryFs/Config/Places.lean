import SharedMemoryFs.Config.Preparation

/-!
# Places of a config

A place is resolved from its raw value and the global section, and a config from
all of its places.
-/

namespace SharedMemoryFs
namespace Config

open Foundation

variable (sizeToBytes : String -> Number)

def placeKeys : List String :=
  ["enabled", "provider", "origin", "maxFileSize", "fs", "require", "import"]

def compiles (place : Place) : Bool := place.require.any RequireConfig.compile

def Place.script (place : Place) : Option ScriptConfig := place.fs.bind FsDomain.script

def providerName (provider : Provider) : String := nameOf providerNames provider

def originName (origin : Option Origin) : String := (origin.map (nameOf originNames)).getD "null"

/-- What {lit}`retainRaw: false` does not go with. -/
def validateRetainRaw (place : Place) (field : String) : Except Thrown Unit := do
  ensure (place.provider == Provider.sab)
    [field, ".fs.compress.retainRaw: false requires provider \"sab\""]
  ensure (place.origin == some Origin.disk)
    [field, ".fs.compress.retainRaw: false requires origin \"disk\" — ",
      "provider \"", providerName place.provider, "\", origin \"", originName place.origin,
      "\" keeps no raw file to serve the source from"]
  ensure (!compiles place)
    [field, ".fs.compress.retainRaw: false is incompatible with ",
      "require.compile — bytecode is built from the source kept in SAB"]
  ensure place.script.isNone
    [field, ".fs.compress.retainRaw: false is incompatible with ",
      "fs.script — its canonical sources and bytecode live in SAB"]
  ensure place.prepare.isNone
    [field, ".fs.compress.retainRaw: false is incompatible with ",
      "prepare — a prepared source exists only in memory"]

/-- What the options of fs ask of the provider. -/
def validateFs (place : Place) (fs : FsDomain) (field : String) : Except Thrown Unit := do
  if place.provider = Provider.nodeDefault then
    ensure (fs.ext.isNone && !fs.writable && !fs.zeroCopy && fs.compress.isNone &&
        fs.fallback.isNone)
      [field, ".fs: options are not applicable to provider \"node-default\""]
  else do
    ensure (!(fs.writable && place.provider == Provider.sea))
      [field, ".fs.writable: SEA assets are read-only"]
    ensure (!(fs.zeroCopy && !place.provider.indexed))
      [field, ".fs.zeroCopy requires provider sab, map or sea"]
    ensure (!(fs.compress.isSome && !shared place.provider))
      [field, ".fs.compress requires provider \"sab\" or \"sea\""]
    if fs.compress.any (fun compress => !compress.retainRaw) then
      validateRetainRaw place field
    else Except.ok ()

/-- What a virtual origin asks of the fs domain. -/
def validateVirtual (place : Place) (field : String) : Except Thrown Unit := do
  ensure place.fs.isSome
    [field, ": origin \"virtual\" requires the fs domain — ",
      "content arrives through fs mutations"]
  ensure (place.fs.any FsDomain.writable)
    [field, ": origin \"virtual\" requires fs.writable — ",
      "a virtual place has no other content source"]

def validatePlace (place : Place) (global : Global) : Except Thrown Unit := do
  let field := "places." ++ place.name
  let provider := providerName place.provider
  ensure (place.fs.isSome || place.require.isSome || place.imports.isSome)
    [field, ": enable at least one domain (fs, require, import)"]
  ensure (!(place.script.isSome && !place.provider.indexed))
    [field, ".fs.script requires provider sab, map or sea; \"", provider,
      "\" has no canonical VFS content"]
  ensure (!(place.prepare.isSome && !place.provider.indexed))
    [field, ": prepare requires provider sab, map or sea; \"", provider,
      "\" serves files from disk as they are"]
  if place.origin = some Origin.virtual then validateVirtual place field else Except.ok ()
  ensure (!(shared place.provider && decide (global.memory.segmentSize < place.maxFileSize)))
    [field, ".maxFileSize must not exceed defaults.memory.segmentSize"]
  match place.fs with
  | none => Except.ok ()
  | some fs => validateFs place fs field
  ensure (!(compiles place && !place.provider.indexed))
    [field, ".require: provider \"", provider, "\" cannot store bytecode; ",
      "use require: \x7b compile: false \x7d"]

/-- The fallback of a disk-origin place is explicit afterwards, there is none elsewhere. -/
def normalizeFallback (place : Place) (global : Global) : Except Thrown Place :=
  match place.fs with
  | none => Except.ok place
  | some fs =>
      let field := "places." ++ place.name ++ ".fs.fallback"
      if !origined place.provider || place.origin != some Origin.disk then do
        ensure fs.fallback.isNone
          [field, " applies to disk-origin places (provider \"sab\" or \"map\", ",
            "origin \"disk\"); provider \"", providerName place.provider, "\"",
            (place.origin.map (fun origin => ", origin \"" ++ nameOf originNames origin ++
              "\"")).getD "",
            " has no directory to fall back to"]
        return place
      else do
        ensure (!(fs.fallback == some Fallback.disk && place.scanExt.isNone))
          [field, ": \"disk\" needs a finite ext list — an unrestricted place ",
            "already caches every file"]
        let resolved := fs.fallback.getD (if global.strict then Fallback.deny else Fallback.disk)
        return { place with fs := some { fs with fallback := some resolved } }

def providerOf (field : String) (raw : Value) : Except Thrown Provider :=
  if raw.isUndefined then Except.ok Provider.sab
  else
    match named providerNames raw with
    | some provider => Except.ok provider
    | none =>
        fail [field, ".provider: unknown provider \"", Piece.shown raw, "\". Valid: ",
          listed (providerNames.map Prod.fst)]

def maxFileSizeOf (field : String) (raw : Value) (global : Global) : Except Thrown Nat :=
  match given raw "maxFileSize" with
  | none => Except.ok global.memory.maxFileSize
  | some size => sizeOf sizeToBytes (field ++ ".maxFileSize") size

def resolvePlace (name : PlaceName) (raw : Value) (global : Global) : Except Thrown Place := do
  let field := "places." ++ name
  validateName name
  mustBeObject field raw
  knownKeys field raw placeKeys
  let provider <- providerOf field (raw.get "provider")
  let enabled <- booleanOf (field ++ ".enabled") (raw.get "enabled") true
  let origin <- resolveOrigin field (raw.get "origin") provider
  let maxFileSize <- maxFileSizeOf sizeToBytes field raw global
  let fs <- resolveFs (field ++ ".fs") (raw.get "fs")
  let require <- resolveRequire (field ++ ".require") (raw.get "require")
  let imports <- resolveImport (field ++ ".import") (raw.get "import")
  ensure (!((given raw "maxFileSize").isSome && !shared provider))
    [field, ".maxFileSize applies to providers \"sab\" and \"sea\" only; \"",
      providerName provider, "\" does not store files in the SAB pool"]
  let scanExt := scanExtOf fs require imports
  let prepare <- resolvePrepare name raw fs require imports
  let place : Place :=
    { name, enabled, provider, origin, maxFileSize, fs, require, imports, scanExt, prepare }
  validatePlace place global
  normalizeFallback place global

/-- The loop over the places; the first two that differ only in case are refused. -/
def validateNames (seen : List (String × PlaceName)) : List Place -> Except Thrown Unit
  | [] => Except.ok ()
  | place :: rest =>
      match seen.lookup (lowercase place.name) with
      | some other =>
          fail ["place names \"", other, "\" and \"", place.name, "\" differ only in case"]
      | none => validateNames (seen ++ [(lowercase place.name, place.name)]) rest

def resolvePlaces (global : Global) : Entries -> Except Thrown (List Place)
  | [] => Except.ok []
  | (name, raw) :: rest => do
      let place <- resolvePlace sizeToBytes name raw global
      let places <- resolvePlaces global rest
      return place :: places

structure VfsConfig where
  raw : Value
  global : Global
  places : List Place

/-- An empty object stands for what is falsy. -/
def orEmpty (value : Value) : Value := if value.truthy then value else Value.object []

/-- {lit}`new VfsConfig(raw)`. -/
def VfsConfig.new (raw : Value) : Except Thrown VfsConfig := do
  ensure (isObject raw) ["config must be an object"]
  knownKeys "config" raw ["defaults", "places"]
  let global <- resolveGlobal sizeToBytes (orEmpty (raw.get "defaults"))
  ensure ((raw.get "places").isUndefined || isObject (raw.get "places"))
    ["places must be an object"]
  let places <- resolvePlaces sizeToBytes global (orEmpty (raw.get "places")).own
  validateNames [] places
  return { raw := deepClone raw, global, places }

/-!
# Inversion of the resolvers
-/

variable {sizeToBytes}

/-- What {lit}`built` was resolved from, before its fallback is made explicit. -/
structure Resolves (sizeToBytes : String -> Number) (name : PlaceName) (raw : Value)
    (global : Global) (built : Place) : Prop where
  named : built.name = name
  validName : validateName name = Except.ok ()
  isObject : isObject raw = true
  known : knownKeys ("places." ++ name) raw placeKeys = Except.ok ()
  provider : providerOf ("places." ++ name) (raw.get "provider") = Except.ok built.provider
  enabled : booleanOf ("places." ++ name ++ ".enabled") (raw.get "enabled") true =
    Except.ok built.enabled
  origin : resolveOrigin ("places." ++ name) (raw.get "origin") built.provider =
    Except.ok built.origin
  maxFileSize : maxFileSizeOf sizeToBytes ("places." ++ name) raw global =
    Except.ok built.maxFileSize
  fs : resolveFs ("places." ++ name ++ ".fs") (raw.get "fs") = Except.ok built.fs
  require : resolveRequire ("places." ++ name ++ ".require") (raw.get "require") =
    Except.ok built.require
  imports : resolveImport ("places." ++ name ++ ".import") (raw.get "import") =
    Except.ok built.imports
  pooled : (!((given raw "maxFileSize").isSome && !shared built.provider)) = true
  scanExt : built.scanExt = scanExtOf built.fs built.require built.imports
  prepare : resolvePrepare name raw built.fs built.require built.imports =
    Except.ok built.prepare
  valid : validatePlace built global = Except.ok ()

theorem resolvePlace_ok {name : PlaceName} {raw : Value} {global : Global} {place : Place}
    (h : resolvePlace sizeToBytes name raw global = Except.ok place) :
    exists built, Resolves sizeToBytes name raw global built ∧
      normalizeFallback built global = Except.ok place := by
  rcases bind_ok.mp h with ⟨_, hname, h⟩
  rcases bind_ok.mp h with ⟨_, hobject, h⟩
  rcases bind_ok.mp h with ⟨_, hknown, h⟩
  rcases bind_ok.mp h with ⟨provider, hprovider, h⟩
  rcases bind_ok.mp h with ⟨enabled, henabled, h⟩
  rcases bind_ok.mp h with ⟨origin, horigin, h⟩
  rcases bind_ok.mp h with ⟨maxFileSize, hsize, h⟩
  rcases bind_ok.mp h with ⟨fs, hfs, h⟩
  rcases bind_ok.mp h with ⟨require, hrequire, h⟩
  rcases bind_ok.mp h with ⟨imports, himports, h⟩
  rcases bind_ok.mp h with ⟨_, hpooled, h⟩
  rcases bind_ok.mp h with ⟨prepare, hprepare, h⟩
  rcases bind_ok.mp h with ⟨_, hvalid, h⟩
  refine ⟨_, ⟨rfl, hname, ensure_ok.mp hobject, hknown, hprovider, henabled, horigin, hsize,
    hfs, hrequire, himports, ensure_ok.mp hpooled, rfl, hprepare, hvalid⟩, h⟩

theorem resolvePlace_of_resolves {name : PlaceName} {raw : Value} {global : Global}
    {built place : Place} (hbuilt : Resolves sizeToBytes name raw global built)
    (h : normalizeFallback built global = Except.ok place) :
    resolvePlace sizeToBytes name raw global = Except.ok place := by
  have hobject : mustBeObject ("places." ++ name) raw = Except.ok () :=
    ensure_ok.mpr hbuilt.isObject
  refine bind_ok.mpr ⟨(), hbuilt.validName, bind_ok.mpr ⟨(), hobject, ?_⟩⟩
  refine bind_ok.mpr ⟨(), hbuilt.known, bind_ok.mpr ⟨_, hbuilt.provider, ?_⟩⟩
  refine bind_ok.mpr ⟨_, hbuilt.enabled, bind_ok.mpr ⟨_, hbuilt.origin, ?_⟩⟩
  refine bind_ok.mpr ⟨_, hbuilt.maxFileSize, bind_ok.mpr ⟨_, hbuilt.fs, ?_⟩⟩
  refine bind_ok.mpr ⟨_, hbuilt.require, bind_ok.mpr ⟨_, hbuilt.imports, ?_⟩⟩
  refine bind_ok.mpr ⟨(), ensure_ok.mpr hbuilt.pooled, bind_ok.mpr ⟨_, hbuilt.prepare, ?_⟩⟩
  have hsame : built =
      { name, enabled := built.enabled, provider := built.provider, origin := built.origin,
        maxFileSize := built.maxFileSize, fs := built.fs, require := built.require,
        imports := built.imports,
        scanExt := scanExtOf built.fs built.require built.imports,
        prepare := built.prepare } := by
    rw [← hbuilt.scanExt, ← hbuilt.named]
  rw [← hsame]
  exact bind_ok.mpr ⟨(), hbuilt.valid, h⟩

/-- Only the fallback changes. -/
theorem normalizeFallback_ok {place built : Place} {global : Global}
    (h : normalizeFallback built global = Except.ok place) :
    exists fallback, place =
      { built with fs := built.fs.map (fun fs => { fs with fallback := fallback }) } := by
  unfold normalizeFallback at h
  split at h
  next hnone =>
    cases h
    refine ⟨none, ?_⟩
    rw [hnone, Option.map_none, ← hnone]
  next fs hsome =>
    split at h
    next =>
      rcases bind_ok.mp h with ⟨_, _, heq⟩
      cases heq
      refine ⟨fs.fallback, ?_⟩
      rw [hsome, Option.map_some, ← hsome]
    next =>
      rcases bind_ok.mp h with ⟨_, _, heq⟩
      cases heq
      rw [hsome]
      exact ⟨_, rfl⟩

/-- The flag and the preparation index have no part in the fallback. -/
theorem normalizeFallback_frame {place built : Place} {global : Global} (enabled : Bool)
    (prepare : Option Assigned) (h : normalizeFallback built global = Except.ok place) :
    normalizeFallback { built with enabled := enabled, prepare := prepare } global =
      Except.ok { place with enabled := enabled, prepare := prepare } := by
  unfold normalizeFallback at h ⊢
  dsimp only
  split at h
  next hnone =>
    cases h
    rw [hnone]
  next fs hsome =>
    rw [hsome]
    dsimp only at h ⊢
    split at h
    next hother =>
      rcases bind_ok.mp h with ⟨_, hfallback, heq⟩
      cases heq
      rw [if_pos hother]
      refine bind_ok.mpr ⟨(), hfallback, ?_⟩
      rw [← hsome]
      rfl
    next hdisk =>
      rcases bind_ok.mp h with ⟨_, hfallback, heq⟩
      cases heq
      rw [if_neg hdisk]
      exact bind_ok.mpr ⟨(), hfallback, rfl⟩

theorem name_of_resolvePlace {name : PlaceName} {raw : Value} {global : Global} {place : Place}
    (h : resolvePlace sizeToBytes name raw global = Except.ok place) : place.name = name := by
  rcases resolvePlace_ok h with ⟨built, hbuilt, hnormalized⟩
  rcases normalizeFallback_ok hnormalized with ⟨fallback, heq⟩
  rw [heq]
  exact hbuilt.named

theorem mem_resolvePlaces {global : Global} {entries : Entries} {places : List Place}
    (h : resolvePlaces sizeToBytes global entries = Except.ok places) {place : Place}
    (hmem : place ∈ places) :
    exists name raw, (name, raw) ∈ entries ∧
      resolvePlace sizeToBytes name raw global = Except.ok place := by
  induction entries generalizing places with
  | nil =>
      cases h
      cases hmem
  | cons entry rest ih =>
      rcases bind_ok.mp h with ⟨first, hfirst, hrest⟩
      rcases bind_ok.mp hrest with ⟨others, hothers, heq⟩
      cases heq
      cases List.mem_cons.mp hmem with
      | inl heq => exact ⟨entry.1, entry.2, List.mem_cons_self, heq ▸ hfirst⟩
      | inr hin =>
          rcases ih hothers hin with ⟨name, raw, hentry, hplace⟩
          exact ⟨name, raw, List.mem_cons_of_mem _ hentry, hplace⟩

theorem resolvePlaces_all {global : Global} {entries : Entries} {places : List Place}
    (h : resolvePlaces sizeToBytes global entries = Except.ok places) {name : PlaceName}
    {raw : Value} (hmem : (name, raw) ∈ entries) :
    exists place, place ∈ places ∧ resolvePlace sizeToBytes name raw global = Except.ok place := by
  induction entries generalizing places with
  | nil => cases hmem
  | cons entry rest ih =>
      rcases bind_ok.mp h with ⟨first, hfirst, hrest⟩
      rcases bind_ok.mp hrest with ⟨others, hothers, heq⟩
      cases heq
      cases List.mem_cons.mp hmem with
      | inl heq =>
          rw [← heq] at hfirst
          exact ⟨first, List.mem_cons_self, hfirst⟩
      | inr hin =>
          rcases ih hothers hin with ⟨place, hplace, hresolved⟩
          exact ⟨place, List.mem_cons_of_mem _ hplace, hresolved⟩

/-- The entries the places of a config are resolved from. -/
def placeEntries (raw : Value) : Entries := (orEmpty (raw.get "places")).own

theorem new_ok {raw : Value} {config : VfsConfig}
    (h : VfsConfig.new sizeToBytes raw = Except.ok config) :
    isObject raw = true ∧ knownKeys "config" raw ["defaults", "places"] = Except.ok () ∧
      resolveGlobal sizeToBytes (orEmpty (raw.get "defaults")) = Except.ok config.global ∧
      ((raw.get "places").isUndefined || isObject (raw.get "places")) = true ∧
      resolvePlaces sizeToBytes config.global (placeEntries raw) = Except.ok config.places ∧
      validateNames [] config.places = Except.ok () ∧ config.raw = deepClone raw := by
  rcases bind_ok.mp h with ⟨_, hobject, h⟩
  rcases bind_ok.mp h with ⟨_, hknown, h⟩
  rcases bind_ok.mp h with ⟨global, hglobal, h⟩
  rcases bind_ok.mp h with ⟨_, hplaces, h⟩
  rcases bind_ok.mp h with ⟨places, hresolved, h⟩
  rcases bind_ok.mp h with ⟨_, hnames, h⟩
  cases h
  exact ⟨ensure_ok.mp hobject, hknown, hglobal, ensure_ok.mp hplaces, hresolved, hnames, rfl⟩

theorem new_of {raw : Value} {global : Global} {places : List Place}
    (hobject : isObject raw = true)
    (hknown : knownKeys "config" raw ["defaults", "places"] = Except.ok ())
    (hglobal : resolveGlobal sizeToBytes (orEmpty (raw.get "defaults")) = Except.ok global)
    (hplaces : ((raw.get "places").isUndefined || isObject (raw.get "places")) = true)
    (hresolved : resolvePlaces sizeToBytes global (placeEntries raw) = Except.ok places)
    (hnames : validateNames [] places = Except.ok ()) :
    VfsConfig.new sizeToBytes raw = Except.ok ⟨deepClone raw, global, places⟩ := by
  refine bind_ok.mpr ⟨(), ensure_ok.mpr hobject, bind_ok.mpr ⟨(), hknown, ?_⟩⟩
  refine bind_ok.mpr ⟨global, hglobal, bind_ok.mpr ⟨(), ensure_ok.mpr hplaces, ?_⟩⟩
  exact bind_ok.mpr ⟨places, hresolved, bind_ok.mpr ⟨(), hnames, rfl⟩⟩

end Config
end SharedMemoryFs
