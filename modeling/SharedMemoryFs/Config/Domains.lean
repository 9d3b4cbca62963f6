import SharedMemoryFs.Config.Scalars

/-!
# Domains

A domain is off, on with its defaults, or an object of options.  The extension
lists of the domains decide what a place shows and what it caches.
-/

namespace SharedMemoryFs
namespace Config

open Foundation

inductive Domain where
  | fs
  | require
  | imports
deriving DecidableEq, Repr

/-- The option a domain is declared by. -/
def Domain.text : Domain -> String
  | fs => "fs"
  | require => "require"
  | imports => "import"

def mustBeObject (field : String) (raw : Value) : Except Thrown Unit :=
  ensure (isObject raw) [field, " must be an object"]

/-- The value of an option, nothing when it is not given. -/
def given (raw : Value) (name : String) : Option Value :=
  if (raw.get name).isUndefined then none else some (raw.get name)

/-- {lit}`Number.isInteger` and the bounds. -/
def levelOf (range : Int × Int) : Value -> Option Int
  | Value.number n => n.integer.filter (fun level => decide (range.1 ≤ level ∧ level ≤ range.2))
  | _ => none

/-- No level when the user gave no options. -/
def resolveCodecOptions (field : String) (encoding : Encoding) (raw : Value) :
    Except Thrown (Option Int) :=
  if raw.isNullish then Except.ok none
  else do
    let name := nameOf encodingNames encoding
    let range := levelRange encoding
    mustBeObject (field ++ "." ++ name) raw
    knownKeys (field ++ "." ++ name) raw ["level"]
    match given raw "level" with
    | none => return none
    | some level =>
        match levelOf range level with
        | some level => return some level
        | none =>
            fail [field, ".", name, ".level must be an integer in ", toString range.1, "..",
              toString range.2]

/-- The loop over the encodings; {lit}`codecs` are those so far. -/
def resolveCodecs (field : String) (options : Value) (codecs : List Codec) :
    List Value -> Except Thrown (List Codec)
  | [] => Except.ok codecs
  | value :: rest =>
      match named encodingNames value with
      | none =>
          fail [field, ".encodings: unknown encoding \"", Piece.shown value, "\". Valid: ",
            listed (encodingNames.map Prod.fst)]
      | some encoding => do
          let name := nameOf encodingNames encoding
          ensure (decide (encoding ∉ codecs.map Codec.encoding))
            [field, ".encodings: duplicate \"", name, "\""]
          let level <- resolveCodecOptions (field ++ ".options") encoding (options.get name)
          resolveCodecs field options (codecs ++ [⟨encoding, level⟩]) rest

def resolveCompressExt (field : String) (ext : Value) : Except Thrown (Option (List Ext)) :=
  match ext with
  | Value.undefined => Except.ok none
  | Value.null => Except.ok none
  | Value.string "compressible" => Except.ok (some compressibleExt)
  | _ => do
      let list <- extListOf field ext
      return some list

/-- {lit}`undefined`, {lit}`false` or {lit}`null`. -/
def isOff : Value -> Bool
  | Value.undefined => true
  | Value.null => true
  | Value.boolean value => !value
  | _ => false

def encodingsOf (field : String) : Value -> Except Thrown (List Value)
  | Value.array (item :: rest) => Except.ok (item :: rest)
  | _ => fail [field, ".encodings must be a non-empty array"]

def resolveCompress (field : String) (raw : Value) : Except Thrown (Option CompressConfig) :=
  if isOff raw then Except.ok none
  else do
    mustBeObject field raw
    knownKeys field raw ["encodings", "options", "ext", "retainRaw"]
    let encodings <- encodingsOf field (raw.get "encodings")
    let options := (given raw "options").getD (Value.object [])
    mustBeObject (field ++ ".options") options
    let codecs <- resolveCodecs field options [] encodings
    let seen := codecs.map (fun codec => nameOf encodingNames codec.encoding)
    match options.keys.find? (fun key => !seen.contains key) with
    | some key =>
        fail [field, ".options.", key, " is set but \"", key, "\" is not in encodings"]
    | none => do
        let ext <- resolveCompressExt (field ++ ".ext") (raw.get "ext")
        let retainRaw <- booleanOf (field ++ ".retainRaw") (raw.get "retainRaw") true
        return some { codecs, ext, retainRaw }

/-- A domain is off, on with its defaults, or an object that is read. -/
def toggled {alpha : Type} (field : String) (raw : Value)
    (resolve : Value -> Except Thrown alpha) : Except Thrown (Option alpha) :=
  match raw with
  | Value.undefined => Except.ok none
  | Value.boolean false => Except.ok none
  | Value.boolean true => do
      let domain <- resolve (Value.object [])
      return some domain
  | _ => do
      ensure (isObject raw) [field, " must be true, false or an object"]
      let domain <- resolve raw
      return some domain

/-- The extensions of an option, or what stands for them when it is not given. -/
def extOr {alpha : Type} (field : String) (raw : Value) (wrap : List Ext -> alpha)
    (absent : alpha) : Except Thrown alpha :=
  match given raw "ext" with
  | none => Except.ok absent
  | some ext => do
      let list <- extListOf (field ++ ".ext") ext
      return wrap list

def resolveScript (field : String) (raw : Value) : Except Thrown (Option ScriptConfig) :=
  toggled field raw (fun raw => do
    knownKeys field raw ["ext", "compile"]
    let ext <- extOr field raw id scriptDefault
    let compile <- booleanOf (field ++ ".compile") (raw.get "compile") true
    return { ext, compile })

def union (lists : List (List Ext)) : List Ext := lists.flatten.foldl addExt []

def resolveFallback (field : String) (raw : Value) : Except Thrown (Option Fallback) :=
  if raw.isUndefined then Except.ok none
  else
    match named fallbackNames raw with
    | some fallback => Except.ok (some fallback)
    | none => fail [field, " must be \"disk\" or \"deny\", got ", Piece.json raw]

/-- Visible extensions are the union of plain files and script sources. -/
def fsExt (own : Option (List Ext)) : Option ScriptConfig -> Option (List Ext)
  | none => own
  | some script => some (union [own.getD [], script.ext])

def fsKeys : List String :=
  ["ext", "writable", "zeroCopy", "compress", "script", "prepare", "fallback"]

def resolveFs (field : String) (raw : Value) : Except Thrown (Option FsDomain) :=
  toggled field raw (fun raw => do
    knownKeys field raw fsKeys
    let script <- resolveScript (field ++ ".script") (raw.get "script")
    let own <- extOr field raw some none
    let writable <- booleanOf (field ++ ".writable") (raw.get "writable") false
    let zeroCopy <- booleanOf (field ++ ".zeroCopy") (raw.get "zeroCopy") false
    let compress <- resolveCompress (field ++ ".compress") (raw.get "compress")
    let fallback <- resolveFallback (field ++ ".fallback") (raw.get "fallback")
    return { ext := fsExt own script, writable, zeroCopy, compress, script, fallback })

def resolveRequire (field : String) (raw : Value) : Except Thrown (Option RequireConfig) :=
  toggled field raw (fun raw => do
    knownKeys field raw ["ext", "compile", "prepare"]
    let ext <- extOr field raw id requireDefault
    let compile <- booleanOf (field ++ ".compile") (raw.get "compile") true
    return { ext, compile })

def resolveImport (field : String) (raw : Value) : Except Thrown (Option ImportDomain) :=
  toggled field raw (fun raw => do
    knownKeys field raw ["ext", "prepare"]
    let ext <- extOr field raw id importDefault
    return { ext })

def resolveOrigin (field : String) (raw : Value) (provider : Provider) :
    Except Thrown (Option Origin) :=
  let name := nameOf providerNames provider
  if !origined provider then do
    ensure raw.isUndefined
      [field, ".origin applies to providers \"sab\" and \"map\" only; \"", name,
        "\" has a fixed origin"]
    return none
  else if raw.isUndefined then Except.ok (some Origin.disk)
  else
    match named originNames raw with
    | some origin => Except.ok (some origin)
    | none =>
        fail [field, ".origin: unknown origin \"", Piece.shown raw, "\". Valid: ",
          listed (originNames.map Prod.fst)]

/-- The extension lists of the enabled domains; that of an unrestricted fs is empty
here. -/
def domainExts (fs : Option FsDomain) (require : Option RequireConfig)
    (imports : Option ImportDomain) : List (List Ext) :=
  (fs.bind FsDomain.ext).toList ++ (require.map RequireConfig.ext).toList ++
    (imports.map ImportDomain.ext).toList

/-- Extensions the scanner loads for a place, nothing when it loads every file. -/
def scanExtOf (fs : Option FsDomain) (require : Option RequireConfig)
    (imports : Option ImportDomain) : Option (List Ext) :=
  if fs.any (fun fs => fs.ext.isNone) then none
  else some (union (domainExts fs require imports))

/-!
# Inversion of the resolvers
-/

/-- What a domain that is on is read from. -/
def options : Value -> Value
  | Value.boolean true => Value.object []
  | raw => raw

/-- The extensions an object lists itself. -/
def listedExt (raw : Value) : Option (List Ext) :=
  (given raw "ext").map (fun ext => (lowered (itemsOf ext)).foldl addExt [])

theorem toggled_ok {alpha : Type} {field : String} {raw : Value}
    {resolve : Value -> Except Thrown alpha} {domain : Option alpha}
    (h : toggled field raw resolve = Except.ok domain) :
    (domain = none ∧ (raw = Value.undefined ∨ raw = Value.boolean false)) ∨
      exists a, domain = some a ∧ resolve (options raw) = Except.ok a ∧
        (raw = Value.boolean true ∨ isObject raw = true) := by
  unfold toggled at h
  split at h
  next =>
    cases h
    exact Or.inl ⟨rfl, Or.inl rfl⟩
  next =>
    cases h
    exact Or.inl ⟨rfl, Or.inr rfl⟩
  next =>
    rcases bind_ok.mp h with ⟨a, hresolve, hsome⟩
    cases hsome
    exact Or.inr ⟨a, rfl, hresolve, Or.inl rfl⟩
  next hundefined hfalse htrue =>
    rcases bind_ok.mp h with ⟨_, hobject, hrest⟩
    rcases bind_ok.mp hrest with ⟨a, hresolve, hsome⟩
    cases hsome
    have hself : options raw = raw := by
      unfold options
      split
      · exact absurd rfl htrue
      · rfl
    exact Or.inr ⟨a, rfl, hself.symm ▸ hresolve, Or.inr (ensure_ok.mp hobject)⟩

theorem given_get {raw value : Value} {name : String} (h : given raw name = some value) :
    raw.get name = value := by
  unfold given at h
  split at h
  · cases h
  · exact Option.some.inj h

theorem extOr_ok {alpha : Type} {field : String} {raw : Value} {wrap : List Ext -> alpha}
    {absent result : alpha} (h : extOr field raw wrap absent = Except.ok result) :
    result = (listedExt raw).elim absent wrap := by
  unfold extOr at h
  unfold listedExt
  split at h
  next hnone =>
    cases h
    rw [hnone]
    rfl
  next ext hsome =>
    rcases bind_ok.mp h with ⟨list, hlist, hwrap⟩
    cases hwrap
    rw [hsome, (extListOf_ok hlist).1]
    rfl

theorem resolveFs_ok {field : String} {raw : Value} {fs : FsDomain}
    (h : resolveFs field raw = Except.ok (some fs)) :
    fs.ext = fsExt (listedExt (options raw)) fs.script ∧
      resolveScript (field ++ ".script") ((options raw).get "script") = Except.ok fs.script ∧
      resolveCompress (field ++ ".compress") ((options raw).get "compress") =
        Except.ok fs.compress := by
  rcases toggled_ok h with ⟨hnone, _⟩ | ⟨a, hsome, hfs, _⟩
  · cases hnone
  · rcases bind_ok.mp hfs with ⟨_, _, hfs⟩
    rcases bind_ok.mp hfs with ⟨script, hscript, hfs⟩
    rcases bind_ok.mp hfs with ⟨own, hown, hfs⟩
    rcases bind_ok.mp hfs with ⟨writable, _, hfs⟩
    rcases bind_ok.mp hfs with ⟨zeroCopy, _, hfs⟩
    rcases bind_ok.mp hfs with ⟨compress, hcompress, hfs⟩
    rcases bind_ok.mp hfs with ⟨fallback, _, hfs⟩
    cases hfs
    cases hsome
    have heq : own = listedExt (options raw) := by
      rw [extOr_ok hown]
      cases listedExt (options raw) with
      | none => rfl
      | some list => rfl
    exact ⟨congrArg (fun own => fsExt own script) heq, hscript, hcompress⟩

theorem resolveRequire_ok {field : String} {raw : Value} {require : RequireConfig}
    (h : resolveRequire field raw = Except.ok (some require)) :
    require.ext = (listedExt (options raw)).getD requireDefault := by
  rcases toggled_ok h with ⟨hnone, _⟩ | ⟨a, hsome, hreq, _⟩
  · cases hnone
  · rcases bind_ok.mp hreq with ⟨_, _, hreq⟩
    rcases bind_ok.mp hreq with ⟨ext, hext, hreq⟩
    rcases bind_ok.mp hreq with ⟨compile, _, hreq⟩
    cases hreq
    cases hsome
    rw [extOr_ok hext]
    cases listedExt (options raw) with
    | none => rfl
    | some list => rfl

theorem resolveImport_ok {field : String} {raw : Value} {imports : ImportDomain}
    (h : resolveImport field raw = Except.ok (some imports)) :
    imports.ext = (listedExt (options raw)).getD importDefault := by
  rcases toggled_ok h with ⟨hnone, _⟩ | ⟨a, hsome, himp, _⟩
  · cases hnone
  · rcases bind_ok.mp himp with ⟨_, _, himp⟩
    rcases bind_ok.mp himp with ⟨ext, hext, himp⟩
    cases himp
    cases hsome
    rw [extOr_ok hext]
    cases listedExt (options raw) with
    | none => rfl
    | some list => rfl

theorem mem_union {lists : List (List Ext)} {ext : Ext} :
    ext ∈ union lists <-> exists list, list ∈ lists ∧ ext ∈ list := by
  unfold union
  rw [mem_foldl_addExt, List.mem_flatten]
  simp only [List.not_mem_nil, false_or]

theorem nodup_union (lists : List (List Ext)) : (union lists).Nodup :=
  nodup_foldl_addExt List.nodup_nil

/-- The lists the scanner unites, domain by domain. -/
theorem mem_scanExtOf {fs : Option FsDomain} {require : Option RequireConfig}
    {imports : Option ImportDomain} {list : List Ext}
    (h : scanExtOf fs require imports = some list) {ext : Ext} :
    ext ∈ list <->
      (exists domain exts, fs = some domain ∧ domain.ext = some exts ∧ ext ∈ exts) ∨
        (exists domain, require = some domain ∧ ext ∈ domain.ext) ∨
          exists domain, imports = some domain ∧ ext ∈ domain.ext := by
  unfold scanExtOf at h
  split at h
  · cases h
  · cases h
    rw [mem_union]
    unfold domainExts
    cases fs with
    | none => cases require <;> cases imports <;> simp
    | some fs =>
        cases hfs : fs.ext <;> cases require <;> cases imports <;> simp [hfs]

end Config
end SharedMemoryFs
