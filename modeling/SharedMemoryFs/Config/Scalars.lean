import SharedMemoryFs.Config.Merge
import SharedMemoryFs.Routing.Router

/-!
# Resolving a config

A raw config is resolved section by section, each resolver with the options it
knows, its defaults and its errors.  The sizes written with a unit are read by a
library outside the repository and are a parameter.
-/

namespace SharedMemoryFs
namespace Config

open Foundation

/-!
# Resolved values
-/

structure Memory where
  limit : Nat
  segmentSize : Nat
  maxFileSize : Nat
deriving DecidableEq, Repr

structure Hooks where
  fs : Bool
  module : Bool
deriving DecidableEq, Repr

structure Global where
  memory : Memory
  threshold : Rat
  hooks : Hooks
  watch : Bool
  watchTimeout : Nat
  strict : Bool
deriving DecidableEq, Repr

structure FsDomain where
  ext : Option (List Ext)
  writable : Bool
  zeroCopy : Bool
  compress : Option CompressConfig
  script : Option ScriptConfig
  fallback : Option Fallback
deriving DecidableEq, Repr

structure ImportDomain where
  ext : List Ext
deriving DecidableEq, Repr

structure Place where
  name : PlaceName
  enabled : Bool
  provider : Provider
  origin : Option Origin
  maxFileSize : Nat
  fs : Option FsDomain
  require : Option RequireConfig
  imports : Option ImportDomain
  scanExt : Option (List Ext)
  prepare : Option (List (Ext × String))
deriving DecidableEq, Repr

/-!
# Names of the options
-/

def providerNames : List (String × Provider) :=
  [("sab", Provider.sab), ("map", Provider.map), ("sea", Provider.sea),
    ("disk", Provider.disk), ("node-default", Provider.nodeDefault)]

def originNames : List (String × Origin) :=
  [("disk", Origin.disk), ("virtual", Origin.virtual)]

def encodingNames : List (String × Encoding) :=
  [("gzip", Encoding.gzip), ("deflate", Encoding.deflate), ("br", Encoding.br),
    ("zstd", Encoding.zstd)]

def fallbackNames : List (String × Fallback) :=
  [("disk", Fallback.disk), ("deny", Fallback.deny)]

/-- One of a list of names. -/
def named {alpha : Type} (names : List (String × alpha)) : Value -> Option alpha
  | Value.string text => names.lookup text
  | _ => none

def nameOf {alpha : Type} [DecidableEq alpha] (names : List (String × alpha)) (a : alpha) :
    String :=
  ((names.find? (fun entry => entry.2 = a)).map Prod.fst).getD ""

def listed (names : List String) : String := ", ".intercalate names

def shared : Provider -> Bool
  | Provider.sab => true
  | Provider.sea => true
  | _ => false

def origined : Provider -> Bool
  | Provider.sab => true
  | Provider.map => true
  | _ => false

def requireDefault : List Ext := ["js", "cjs", "json"]

def importDefault : List Ext := ["js", "mjs", "json"]

def scriptDefault : List Ext := ["js", "cjs"]

def levelRange : Encoding -> Int × Int
  | Encoding.gzip => (0, 9)
  | Encoding.deflate => (0, 9)
  | Encoding.br => (0, 11)
  | Encoding.zstd => (1, 22)

def compressibleExt : List Ext :=
  ["html", "htm", "css", "js", "mjs", "cjs", "json", "map", "svg", "xml", "txt", "md", "csv",
    "wasm", "ttf", "otf", "webmanifest"]

def defaults : Value :=
  Value.object
    [("memory", Value.object
        [("limit", Value.string "1 gib"), ("segmentSize", Value.string "64 mib"),
          ("maxFileSize", Value.string "10 mb")]),
      ("compaction", Value.object [("threshold", Value.number (Number.finite (3 / 10)))]),
      ("hooks", Value.object [("fs", Value.boolean true), ("module", Value.boolean true)]),
      ("watch", Value.boolean false),
      ("watchTimeout", Value.number (Number.finite 1000)),
      ("strict", Value.boolean false)]

/-!
# Scalars
-/

variable (sizeToBytes : String -> Number)

/-- The number of bytes a size says, a string in the words of the library. -/
def bytesOf : Value -> Option Int
  | Value.string text => (sizeToBytes text).safeInteger
  | Value.number n => n.safeInteger
  | _ => none

def sizeOf (field : String) (value : Value) : Except Thrown Nat :=
  match (bytesOf sizeToBytes value).filter (fun bytes => decide (0 < bytes)) with
  | some bytes => Except.ok bytes.toNat
  | none => fail [field, " must be a positive integer size, got ", Piece.shown value]

def booleanOf (field : String) (value : Value) (fallback : Bool) : Except Thrown Bool :=
  match value with
  | Value.undefined => Except.ok fallback
  | Value.boolean b => Except.ok b
  | _ => fail [field, " must be a boolean"]

def isExtension (text : String) : Bool :=
  decide (text.toList ≠ []) && text.toList.all Char.isAlphanum

def lowercase (text : String) : String := String.ofList (text.toList.map Char.toLower)

/-- Append an extension that is not there yet. -/
def addExt (result : List Ext) (ext : Ext) : List Ext :=
  if ext ∈ result then result else result ++ [ext]

/-- The loop over the items; {lit}`result` are the extensions so far. -/
def extItems (field : String) (result : List Ext) : List Value -> Except Thrown (List Ext)
  | [] => Except.ok result
  | Value.string text :: rest => do
      ensure (isExtension text) [field, " items must be alphanumeric extensions without dots"]
      extItems field (addExt result (lowercase text)) rest
  | _ :: _ => fail [field, " items must be alphanumeric extensions without dots"]

def extListOf (field : String) (value : Value) : Except Thrown (List Ext) :=
  match value with
  | Value.array (item :: rest) => extItems field [] (item :: rest)
  | _ => fail [field, " must be a non-empty array of extensions"]

/-!
# Extension lists
-/

theorem mem_addExt {result : List Ext} {ext e : Ext} :
    e ∈ addExt result ext <-> e ∈ result ∨ e = ext := by
  unfold addExt
  split
  next h =>
    constructor
    · intro he
      exact Or.inl he
    · intro he
      cases he with
      | inl he => exact he
      | inr he => exact he ▸ h
  next h => rw [List.mem_append, List.mem_singleton]

theorem mem_foldl_addExt {exts result : List Ext} {e : Ext} :
    e ∈ exts.foldl addExt result <-> e ∈ result ∨ e ∈ exts := by
  induction exts generalizing result with
  | nil => simp
  | cons ext rest ih =>
      rw [List.foldl_cons, ih, mem_addExt, List.mem_cons, or_assoc]

theorem nodup_foldl_addExt {exts result : List Ext} (h : result.Nodup) :
    (exts.foldl addExt result).Nodup := by
  induction exts generalizing result with
  | nil => exact h
  | cons ext rest ih =>
      rw [List.foldl_cons]
      apply ih
      unfold addExt
      split
      next hmem => exact h
      next hmem =>
        rw [List.nodup_append]
        refine ⟨h, List.nodup_singleton ext, ?_⟩
        intro a ha b hb heq
        rw [List.mem_singleton] at hb
        exact hmem (hb ▸ heq ▸ ha)

theorem length_foldl_addExt_le {exts result : List Ext} :
    (exts.foldl addExt result).length ≤ result.length + exts.length := by
  induction exts generalizing result with
  | nil => simp
  | cons ext rest ih =>
      have hone : (addExt result ext).length ≤ result.length + 1 := by
        unfold addExt
        split
        · omega
        · rw [List.length_append, List.length_singleton]
      have hrest : (rest.foldl addExt (addExt result ext)).length ≤
          (addExt result ext).length + rest.length := ih
      rw [List.foldl_cons, List.length_cons]
      omega

/-- Without a repetition the loop appends the list, and only then is nothing lost. -/
theorem foldl_addExt_eq {exts result : List Ext} :
    result.length + exts.length ≤ (exts.foldl addExt result).length <->
      exts.Nodup ∧ forall e, e ∈ exts -> e ∉ result := by
  induction exts generalizing result with
  | nil => simp
  | cons ext rest ih =>
      rw [List.foldl_cons, List.length_cons, List.nodup_cons]
      cases hmem : decide (ext ∈ result) with
      | true =>
          have hin := of_decide_eq_true hmem
          have hle : (rest.foldl addExt (addExt result ext)).length ≤
              (addExt result ext).length + rest.length := length_foldl_addExt_le
          have hsame : addExt result ext = result := if_pos hin
          rw [hsame] at hle ⊢
          constructor
          · intro h
            omega
          · intro h
            exact absurd hin (h.2 ext List.mem_cons_self)
      | false =>
          have hout := of_decide_eq_false hmem
          have hnew : addExt result ext = result ++ [ext] := if_neg hout
          have hlen : result.length + (rest.length + 1) =
              (addExt result ext).length + rest.length := by
            rw [hnew, List.length_append, List.length_singleton]
            omega
          rw [hlen, ih, hnew]
          constructor
          · intro h
            refine ⟨⟨?_, h.1⟩, ?_⟩
            · intro hrest
              exact h.2 ext hrest (List.mem_append_right _ (List.mem_singleton.mpr rfl))
            · intro e he
              cases List.mem_cons.mp he with
              | inl heq => exact heq ▸ hout
              | inr he => exact fun hr => h.2 e he (List.mem_append_left _ hr)
          · intro h
            refine ⟨h.1.2, ?_⟩
            intro e he happ
            cases List.mem_append.mp happ with
            | inl hr => exact h.2 e (List.mem_cons_of_mem _ he) hr
            | inr hs => exact h.1.1 (List.mem_singleton.mp hs ▸ he)

theorem foldl_addExt_self {exts result : List Ext} (hnodup : exts.Nodup)
    (hnew : forall e, e ∈ exts -> e ∉ result) : exts.foldl addExt result = result ++ exts := by
  induction exts generalizing result with
  | nil => rw [List.foldl_nil, List.append_nil]
  | cons ext rest ih =>
      have hone : addExt result ext = result ++ [ext] := if_neg (hnew ext List.mem_cons_self)
      rw [List.nodup_cons] at hnodup
      rw [List.foldl_cons, hone, ih hnodup.2, List.append_assoc]
      · rfl
      · intro e he happ
        cases List.mem_append.mp happ with
        | inl hr => exact hnew e (List.mem_cons_of_mem _ he) hr
        | inr hs => exact hnodup.1 (List.mem_singleton.mp hs ▸ he)

/-- The extensions a list of values names. -/
def lowered : List Value -> List Ext
  | [] => []
  | Value.string text :: rest => lowercase text :: lowered rest
  | _ :: rest => lowered rest

def itemsOf : Value -> List Value
  | Value.array items => items
  | _ => []

theorem extItems_ok {field : String} {items : List Value} {result list : List Ext}
    (h : extItems field result items = Except.ok list) :
    list = (lowered items).foldl addExt result ∧ (lowered items).length = items.length := by
  induction items generalizing result with
  | nil =>
      cases h
      exact ⟨rfl, rfl⟩
  | cons item rest ih =>
      cases item with
      | string text =>
          rcases bind_ok.mp h with ⟨_, _, hrest⟩
          rcases ih hrest with ⟨hlist, hlen⟩
          exact ⟨hlist, congrArg Nat.succ hlen⟩
      | _ => exact absurd h fail_ne_ok

theorem extListOf_ok {field : String} {value : Value} {list : List Ext}
    (h : extListOf field value = Except.ok list) :
    list = (lowered (itemsOf value)).foldl addExt [] ∧
      (lowered (itemsOf value)).length = (itemsOf value).length ∧ itemsOf value ≠ [] := by
  unfold extListOf at h
  split at h
  next item rest =>
    rcases extItems_ok h with ⟨hlist, hlen⟩
    exact ⟨hlist, hlen, List.cons_ne_nil _ _⟩
  next => exact absurd h fail_ne_ok

/-!
# Known options
-/

def knownKeys (field : String) (value : Value) (allowed : List String) : Except Thrown Unit :=
  match value.keys.find? (fun key => !allowed.contains key) with
  | none => Except.ok ()
  | some key => fail [field, ": unknown option \"", key, "\". Valid: ", listed allowed]

theorem knownKeys_ok {field : String} {value : Value} {allowed : List String}
    {u : Unit} :
    knownKeys field value allowed = Except.ok u <->
      forall key, key ∈ value.keys -> key ∈ allowed := by
  unfold knownKeys
  split
  next hnone =>
    rw [List.find?_eq_none] at hnone
    refine ⟨fun _ key hkey => ?_, fun _ => rfl⟩
    simpa using hnone key hkey
  next key hsome =>
    constructor
    · intro h
      exact absurd h fail_ne_ok
    · intro h
      have hmem := h key (List.mem_of_find?_eq_some hsome)
      have hfound := List.find?_some hsome
      rw [List.contains_iff_mem.mpr hmem] at hfound
      cases hfound

/-!
# The global section
-/

/-- A property of a value that may be no object at all. -/
def read (value : Value) (name : String) : Except Thrown Value :=
  if value.isNullish then Except.error Thrown.other else Except.ok (value.get name)

def fraction : Value -> Option Rat
  | Value.number (Number.finite value) => if 0 ≤ value ∧ value ≤ 1 then some value else none
  | _ => none

def thresholdOf (value : Value) : Except Thrown Rat :=
  match fraction value with
  | some threshold => Except.ok threshold
  | none => fail ["defaults.compaction.threshold must be a number in 0..1"]

def timeout : Value -> Option Nat
  | Value.number n =>
      (n.safeInteger.filter (fun value => decide (0 ≤ value))).map Int.toNat
  | _ => none

def watchTimeoutOf (value : Value) : Except Thrown Nat :=
  match timeout value with
  | some watchTimeout => Except.ok watchTimeout
  | none => fail ["defaults.watchTimeout must be a non-negative integer"]

def resolveMemory (memory : Value) : Except Thrown Memory := do
  let limit <- sizeOf sizeToBytes "defaults.memory.limit" (<- read memory "limit")
  let segmentSize <-
    sizeOf sizeToBytes "defaults.memory.segmentSize" (<- read memory "segmentSize")
  let maxFileSize <-
    sizeOf sizeToBytes "defaults.memory.maxFileSize" (<- read memory "maxFileSize")
  return { limit, segmentSize, maxFileSize }

def resolveHooks (hooks : Value) : Except Thrown Hooks := do
  let fs <- booleanOf "defaults.hooks.fs" (<- read hooks "fs") true
  let module_ <- booleanOf "defaults.hooks.module" (<- read hooks "module") true
  return { fs := fs, module := module_ }

def resolveGlobal (raw : Value) : Except Thrown Global := do
  let merged := mergeDeep (deepClone defaults) raw
  knownKeys "defaults" merged defaults.keys
  let threshold <- thresholdOf (<- read (merged.get "compaction") "threshold")
  let watchTimeout <- watchTimeoutOf (merged.get "watchTimeout")
  let memory <- resolveMemory sizeToBytes (merged.get "memory")
  let hooks <- resolveHooks (merged.get "hooks")
  let watch <- booleanOf "defaults.watch" (merged.get "watch") false
  let strict <- booleanOf "defaults.strict" (merged.get "strict") false
  ensure (decide (memory.segmentSize ≤ memory.limit))
    ["defaults.memory.limit must be at least one segmentSize"]
  ensure (decide (memory.maxFileSize ≤ memory.segmentSize))
    ["defaults.memory.maxFileSize must not exceed segmentSize"]
  return { memory, threshold, hooks, watch, watchTimeout, strict }

/-!
# Place names
-/

def isNameChar (c : Char) : Bool := c.isAlphanum || c == '.' || c == '_' || c == '-'

def isName (name : PlaceName) : Bool :=
  match name.toList with
  | [] => false
  | first :: rest => first.isAlphanum && rest.all isNameChar

def deviceNames : List String :=
  ["con", "prn", "aux", "nul", "com1", "com2", "com3", "com4", "com5", "com6", "com7", "com8",
    "com9", "lpt1", "lpt2", "lpt3", "lpt4", "lpt5", "lpt6", "lpt7", "lpt8", "lpt9"]

/-- The text in front of the first dot is the name of a device. -/
def isDeviceName (name : PlaceName) : Bool :=
  deviceNames.contains (lowercase (String.ofList (name.toList.takeWhile (fun c => c != '.'))))

def validateName (name : PlaceName) : Except Thrown Unit := do
  ensure (isName name)
    ["invalid place name \"", name, "\": use ASCII letters, digits, \".\", \"_\", ",
      "\"-\" and start with a letter or digit"]
  ensure (name.toList.getLast? != some '.')
    ["invalid place name \"", name, "\": trailing dot"]
  ensure (!isDeviceName name)
    ["invalid place name \"", name, "\": reserved device name on Windows"]

end Config
end SharedMemoryFs
