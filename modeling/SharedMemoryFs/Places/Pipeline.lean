import SharedMemoryFs.Places.Place
import SharedMemoryFs.Places.PlaceFiles
import SharedMemoryFs.Places.Errors

/-!
# The publication pipeline

What a file is, decided once for each publication attempt, and the checks a
mutation of a virtual place passes before anything is published.  A preparer is
arbitrary synchronous code: besides returning something it may write into the
raw buffer it is handed.  Compilers and the extension of a key come from outside
the repository.
-/

namespace SharedMemoryFs

open Foundation

/-- One version in the projection of a place. -/
structure PlaceFile where
  data : Bytes
  stat : Stat
  scriptOptions : Option Cloneable := none
  metadata : Option Cloneable := none
deriving DecidableEq, Repr

abbrev Files := PlaceFiles PlaceFile

/-!
# Preparers
-/

/-- The frozen description of the file a preparer is given. -/
structure SourceFile where
  place : PlaceName
  key : Key
  path : String
  ext : Ext
  stat : Stat
deriving DecidableEq, Repr

/-- The bytes a preparer returned: the raw buffer itself, or others. -/
inductive ReturnedSource where
  | raw
  | bytes (data : Bytes)
deriving DecidableEq, Repr

/-- The value of one field of a returned object. -/
inductive ReturnedField where
  | absent
  | notAnObject
  | uncloneable
  | object (value : Cloneable) (properties : List String)
deriving DecidableEq, Repr

inductive Returned where
  | threw
  | nothing
  | promise
  | other
  | bare (source : ReturnedSource)
  | object (source : Option ReturnedSource) (scriptOptions metadata : ReturnedField)
deriving DecidableEq, Repr

/-- What one call leaves: the bytes now in the raw buffer, and the result. -/
structure Outcome where
  raw : Bytes
  returned : Returned
deriving DecidableEq, Repr

structure Preparer where
  prepare : SourceFile -> Bytes -> Outcome
  length_raw : forall file raw, (prepare file raw).raw.length = raw.length

def bytesOf (raw : Bytes) : ReturnedSource -> Bytes
  | ReturnedSource.raw => raw
  | ReturnedSource.bytes data => data

def cloneField (name : String) : ReturnedField -> Except Refusal (Option (Cloneable × List String))
  | ReturnedField.absent => Except.ok none
  | ReturnedField.notAnObject => Except.error (Refusal.rejected (Rejection.notAnObject name))
  | ReturnedField.uncloneable => Except.error (Refusal.rejected (Rejection.uncloneable name))
  | ReturnedField.object value properties => Except.ok (some (value, properties))

def reservedScriptOptions : List String :=
  ["cachedData", "produceCachedData", "importModuleDynamically"]

def scriptOptionsOf (field : ReturnedField) : Except Refusal (Option Cloneable) := do
  match ← cloneField "scriptOptions" field with
  | none => Except.ok none
  | some (value, properties) =>
      match reservedScriptOptions.find? (fun name => decide (name ∈ properties)) with
      | some name => Except.error (Refusal.rejected (Rejection.reservedOption name))
      | none => Except.ok (some value)

/-!
# The canonical input
-/

/-- A place as its mutation engine sees it.  {lit}`registered` are the callbacks
of this thread by name. -/
structure Place where
  config : PlaceConfig
  root : String
  fileExt : Key -> Ext
  registered : String -> Option Preparer
  /-- Cached data of the wrapped source under a filename. -/
  compileRequire : String -> Bytes -> Option Bytes
  /-- Cached data of the bare source under its options. -/
  compileScript : Option Cloneable -> Bytes -> Option Bytes

namespace Place

variable (place : Place)

/-- A canonical key needs no normalization. -/
def pathOf (key : Key) : String :=
  if key = [] ∨ key = [slash] then place.root else place.root ++ String.ofList key

def prepared (key : Key) : Option String := place.config.prepared place.fileExt key

/-- The callback bound to the extension of a key. -/
def preparerOf (key : Key) : Option Preparer := (place.prepared key).bind place.registered

def companions (key : Key) : List EntryKey := place.config.companions key

def bytecodeDomains (key : Key) : List BytecodeDomain :=
  place.config.bytecodeDomains place.fileExt key

/-- Every preparer the place names is registered, as on the main thread. -/
def Bound : Prop :=
  forall key name, place.prepared key = some name -> (place.registered name).isSome = true

/-- {lit}`prepareInput`: the bytes the raw buffer holds afterwards, and the input
to publish. -/
def prepareInput (key : Key) (stat : Stat) (raw : Bytes) (preparer : Preparer) :
    Bytes × Except Refusal PlaceFile :=
  let file : SourceFile :=
    { place := place.config.name
      key := key
      path := place.pathOf key
      ext := place.fileExt key
      stat := stat }
  let outcome := preparer.prepare file raw
  (outcome.raw,
    match outcome.returned with
    | Returned.threw => Except.error Refusal.thrown
    | Returned.nothing => Except.ok { data := outcome.raw, stat := stat }
    | Returned.promise => Except.error (Refusal.rejected Rejection.asynchronous)
    | Returned.other => Except.error (Refusal.rejected Rejection.resultType)
    | Returned.bare source =>
        let data := bytesOf outcome.raw source
        Except.ok { data := data, stat := { size := data.length, mtimeMs := stat.mtimeMs } }
    | Returned.object none _ _ => Except.error (Refusal.rejected Rejection.sourceType)
    | Returned.object (some source) scriptOptions metadata => do
        let data := bytesOf outcome.raw source
        let scriptOptions ← scriptOptionsOf scriptOptions
        let metadata ← cloneField "meta" metadata
        Except.ok
          { data := data
            stat := { size := data.length, mtimeMs := stat.mtimeMs }
            scriptOptions := scriptOptions
            metadata := metadata.map Prod.fst })

/-!
# Bytecode
-/

/-- Cached data of one flavor, missing when the source does not parse. -/
structure Code where
  domain : BytecodeDomain
  key : EntryKey
  data : Option Bytes
deriving DecidableEq, Repr

def createBytecode (key : Key) (source : Bytes) (scriptOptions : Option Cloneable) :
    BytecodeDomain -> Option Bytes
  | BytecodeDomain.require => place.compileRequire (place.pathOf key) source
  | BytecodeDomain.script => place.compileScript scriptOptions source

def bytecodeFor (key : Key) (source : Bytes) (scriptOptions : Option Cloneable) : List Code :=
  (place.bytecodeDomains key).map (fun domain =>
    { domain := domain
      key := bytecodeKey key domain
      data := place.createBytecode key source scriptOptions domain })

/-!
# Checks of the hierarchy
-/

variable (files : Files)

/-- The loop of {lit}`fileAbove` over the slashes of a key, the last one first. -/
def fileAboveWithin (creating : List Key) : Nat -> Key -> Bool
  | 0, _ => false
  | fuel + 1, key =>
      if slash ∈ key then
        let parent := (splitLast slash key).1
        if parent = [] then false
        else if files.hasSource parent ∨ parent ∈ creating then true
        else fileAboveWithin creating fuel parent
      else false

/-- An ancestor of {lit}`key` is a file, published or being created. -/
def fileAbove (key : Key) (creating : List Key) : Bool :=
  fileAboveWithin files creating key.length key

abbrev Fail := ErrorCode -> Option String -> Refusal

/-- The error of an operation on one key. -/
def failOn (syscall : Syscall) (key : Key) : Fail :=
  fun code detail => Refusal.fs { code := code, syscall := syscall, path := place.pathOf key, detail := detail }

def failRename (source target : Key) : Fail :=
  fun code detail =>
    Refusal.fs
      { code := code
        syscall := Syscall.rename
        path := place.pathOf source
        detail := detail
        dest := some (place.pathOf target) }

def checkHierarchy (key : Key) (fail : Fail) (creating : List Key) : Except Refusal Unit :=
  if fileAbove files key creating then Except.error (fail ErrorCode.enotdir none)
  else if files.hasSource key then Except.ok ()
  else if files.isDirectory key then Except.error (fail ErrorCode.eisdir none)
  else if creating.any (fun other => (key ++ [slash]).isPrefixOf other) then
    Except.error (fail ErrorCode.eisdir none)
  else Except.ok ()

def checkExclusive (key : Key) (fail : Fail) : Except Refusal Unit :=
  if files.hasSource key ∨ files.isDirectory key then Except.error (fail ErrorCode.eexist none)
  else Except.ok ()

/-- Why a removal finds no file at {lit}`key`. -/
def absentCode (key : Key) : ErrorCode :=
  if files.hasSource key then ErrorCode.enotdir else ErrorCode.enoent

def checkMkdir (key : Key) (recursive : Bool) (fail : Fail) (creating : List Key) :
    Except Refusal Unit :=
  if files.hasSource key ∨ key ∈ creating then Except.error (fail ErrorCode.eexist none)
  else if fileAbove files key creating then Except.error (fail ErrorCode.enotdir none)
  else if !recursive ∧ files.isDirectory key then Except.error (fail ErrorCode.eexist none)
  else Except.ok ()

/-!
# Moving a subtree
-/

/-- Why a published source cannot move under another key as it is. -/
def immovable (key : Key) : Option String :=
  if (place.prepared key).isSome then some "prepared source"
  else if place.bytecodeDomains key ≠ [] then some "compiled source"
  else
    match files.get (EntryKey.ofSource key) with
    | some file =>
        if file.scriptOptions.isSome ∨ file.metadata.isSome then
          some "path-dependent metadata"
        else none
    | none => none

/-- {lit}`key` re-keyed from below {lit}`source` to below {lit}`target`. -/
def rekey (source target key : Key) : Key := target ++ key.drop source.length

/-- The moves of one source: its entry and every companion it has. -/
def movesOf (source target key : Key) : List (EntryKey × EntryKey) :=
  (EntryKey.ofSource key, EntryKey.ofSource (rekey source target key)) ::
    ((place.companions key).filter (fun companion => files.has companion)).map
      (fun companion => (companion, ⟨rekey source target key, companion.flavor⟩))

def collectMoves (source target : Key) (fail : Fail) :
    List Key -> Except Refusal (List (EntryKey × EntryKey))
  | [] => Except.ok []
  | key :: rest =>
      match place.immovable files key with
      | some reason =>
          Except.error
            (fail ErrorCode.enotsup (some (reason ++ " " ++ String.ofList key)))
      | none => do
          let moves ← collectMoves source target fail rest
          Except.ok (place.movesOf files source target key ++ moves)

def subtreeMoves (source target : Key) (creating : List Key) :
    Except Refusal (List (EntryKey × EntryKey)) :=
  let fail := place.failRename source target
  let sources := files.keysUnder source
  if sources = [] then Except.error (fail ErrorCode.enoent none)
  else if target = source then Except.ok []
  else if (source ++ [slash]).isPrefixOf target then
    Except.error (fail ErrorCode.einval (some "a directory into itself"))
  else if files.hasSource target then Except.error (fail ErrorCode.enotdir none)
  else if files.isDirectory target then Except.error (fail ErrorCode.enotempty none)
  else do
    checkHierarchy files target fail creating
    place.collectMoves files source target fail sources

/-!
# What the checks establish
-/

/-- A computation behind a check succeeds when both do. -/
theorem bind_ok {alpha beta : Type} {check : Except Refusal alpha}
    {rest : alpha -> Except Refusal beta} {value : beta} :
    check >>= rest = Except.ok value <->
      exists a, check = Except.ok a ∧ rest a = Except.ok value := by
  cases check with
  | error refusal =>
      constructor
      · intro h
        cases h
      · intro h
        rcases h with ⟨a, ha, _⟩
        cases ha
  | ok a =>
      constructor
      · intro h
        exact ⟨a, rfl, h⟩
      · intro h
        rcases h with ⟨b, hb, hrest⟩
        rw [Except.ok.inj hb]
        exact hrest

theorem fileAboveWithin_iff {files : Files} {creating : List Key} {fuel : Nat} {key : Key}
    (hkey : PlaceFiles.RootedKey key) (hfuel : key.length ≤ fuel) :
    fileAboveWithin files creating fuel key = true <->
      exists file, file ≠ [] ∧ Above slash file key ∧
        (files.hasSource file = true ∨ file ∈ creating) := by
  induction fuel generalizing key with
  | zero =>
      have hnil : key = [] := List.eq_nil_of_length_eq_zero (Nat.le_zero.mp hfuel)
      rw [hnil]
      constructor
      · intro h
        cases h
      · intro h
        rcases h with ⟨file, _, ⟨rest, hrest⟩, _⟩
        exact absurd hrest (by simp)
  | succ fuel ih =>
      unfold fileAboveWithin
      by_cases hslash : slash ∈ key
      · rw [if_pos hslash]
        rcases exists_last hslash with ⟨dir, name, hname, rfl⟩
        rw [splitLast_append hname]
        have hdir : Above slash dir (dir ++ slash :: name) := ⟨name, rfl⟩
        have hparent : forall {file : Key}, Above slash file (dir ++ slash :: name) ->
            file = dir ∨ Above slash file dir := by
          intro file hfile
          have h := hfile.parent
          rw [splitLast_append hname] at h
          exact h
        have hlen : dir.length ≤ fuel := by
          have hlt := hdir.length_lt
          omega
        by_cases hroot : dir = []
        · simp only [if_pos hroot]
          constructor
          · intro h
            cases h
          · intro h
            rcases h with ⟨file, hne, habove, _⟩
            rcases hparent habove with heq | ⟨rest, hrest⟩
            · exact absurd (heq.trans hroot) hne
            · rw [hroot] at hrest
              exact absurd hrest (by simp)
        · simp only [if_neg hroot]
          by_cases hfile : files.hasSource dir = true ∨ dir ∈ creating
          · rw [if_pos hfile]
            exact ⟨fun _ => ⟨dir, hroot, hdir, hfile⟩, fun _ => rfl⟩
          · rw [if_neg hfile, ih hkey.parent hlen]
            constructor
            · intro h
              rcases h with ⟨file, hne, habove, hhas⟩
              exact ⟨file, hne, habove.trans hdir, hhas⟩
            · intro h
              rcases h with ⟨file, hne, habove, hhas⟩
              rcases hparent habove with heq | habove'
              · rw [heq] at hhas
                exact absurd hhas hfile
              · exact ⟨file, hne, habove', hhas⟩
      · rw [if_neg hslash]
        constructor
        · intro h
          cases h
        · intro h
          rcases h with ⟨file, _, ⟨rest, hrest⟩, _⟩
          exact absurd (by rw [hrest]; simp) hslash

theorem fileAbove_iff {files : Files} {key : Key} {creating : List Key}
    (hkey : PlaceFiles.RootedKey key) :
    fileAbove files key creating = true <->
      exists file, file ≠ [] ∧ Above slash file key ∧
        (files.hasSource file = true ∨ file ∈ creating) :=
  fileAboveWithin_iff hkey (Nat.le_refl _)

/-- What passing {lit}`checkHierarchy` says of the files there and in flight. -/
structure Clear (files : Files) (creating : List Key) (key : Key) : Prop where
  above : forall file, files.hasSource file = true ∨ file ∈ creating -> file ≠ [] ->
    ¬ Above slash file key
  below : files.hasSource key = true ∨
    forall file, files.hasSource file = true ∨ file ∈ creating -> ¬ Above slash key file

theorem checkHierarchy_ok {files : Files} (hindexed : files.Indexed) {key : Key}
    (hkey : PlaceFiles.Plain key) {fail : Fail} {creating : List Key} :
    checkHierarchy files key fail creating = Except.ok () <-> Clear files creating key := by
  have habove := @fileAbove_iff files key creating (Or.inr hkey.1)
  have hdirectory := PlaceFiles.isDirectory_iff hindexed hkey
  have hcreating : creating.any (fun other => (key ++ [slash]).isPrefixOf other) = true <->
      exists file, file ∈ creating ∧ Above slash key file := by
    rw [List.any_eq_true]
    exact exists_congr (fun file => and_congr_right' isPrefixOf_iff)
  unfold checkHierarchy
  constructor
  · intro h
    by_cases h1 : fileAbove files key creating = true
    · rw [if_pos h1] at h
      cases h
    · rw [if_neg h1] at h
      have hclear : forall file, files.hasSource file = true ∨ file ∈ creating ->
          file ≠ [] -> ¬ Above slash file key :=
        fun file hfile hne hlt => h1 (habove.mpr ⟨file, hne, hlt, hfile⟩)
      by_cases h2 : files.hasSource key = true
      · exact ⟨hclear, Or.inl h2⟩
      · rw [if_neg h2] at h
        by_cases h3 : files.isDirectory key = true
        · rw [if_pos h3] at h
          cases h
        · rw [if_neg h3] at h
          by_cases h4 : creating.any (fun other => (key ++ [slash]).isPrefixOf other) = true
          · rw [if_pos h4] at h
            cases h
          · refine ⟨hclear, Or.inr ?_⟩
            intro file hfile hlt
            rcases hfile with hfile | hfile
            · exact h3 (hdirectory.mpr ⟨file, hfile, hlt⟩)
            · exact h4 (hcreating.mpr ⟨file, hfile, hlt⟩)
  · intro h
    have h1 : ¬ fileAbove files key creating = true := by
      intro hcontra
      rcases habove.mp hcontra with ⟨file, hne, hlt, hfile⟩
      exact h.above file hfile hne hlt
    rw [if_neg h1]
    rcases h.below with hfile | hbelow
    · rw [if_pos hfile]
    · have h3 : ¬ files.isDirectory key = true := by
        intro hcontra
        rcases hdirectory.mp hcontra with ⟨file, hfile, hlt⟩
        exact hbelow file (Or.inl hfile) hlt
      have h4 : ¬ creating.any (fun other => (key ++ [slash]).isPrefixOf other) = true := by
        intro hcontra
        rcases hcreating.mp hcontra with ⟨file, hfile, hlt⟩
        exact hbelow file (Or.inr hfile) hlt
      rw [if_neg h3, if_neg h4]
      split_ifs <;> rfl

/-- Fewer keys in flight clear what more keys clear. -/
theorem Clear.weaken {files : Files} {creating : List Key} {key : Key}
    (h : Clear files creating key) : Clear files [] key := by
  have hsub : forall {file : Key}, files.hasSource file = true ∨ file ∈ [] ->
      files.hasSource file = true ∨ file ∈ creating := by
    intro file hfile
    rcases hfile with hfile | hfile
    · exact Or.inl hfile
    · cases hfile
  constructor
  · exact fun file hfile => h.above file (hsub hfile)
  · rcases h.below with hfile | hbelow
    · exact Or.inl hfile
    · exact Or.inr (fun file hfile => hbelow file (hsub hfile))

theorem checkHierarchy_weaken {files : Files} (hindexed : files.Indexed) {key : Key}
    (hkey : PlaceFiles.Plain key) {fail : Fail} {creating : List Key}
    (h : checkHierarchy files key fail creating = Except.ok ()) :
    checkHierarchy files key fail [] = Except.ok () :=
  (checkHierarchy_ok hindexed hkey).mpr ((checkHierarchy_ok hindexed hkey).mp h).weaken

end Place

end SharedMemoryFs
