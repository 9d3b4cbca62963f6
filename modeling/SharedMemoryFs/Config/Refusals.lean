import SharedMemoryFs.Config.Defaults

/-!
# Refusals

A config is refused by an error of the library, unless a section of the defaults is
{lit}`null` or {lit}`undefined`, or a value that stands in the message has no text.
-/

namespace SharedMemoryFs
namespace Config

open Foundation

variable {alpha beta : Type}

/-- No other exception than an error of the library. -/
def Orderly (x : Except Thrown alpha) : Prop :=
  forall thrown, x = Except.error thrown -> thrown.isConfig = true

theorem orderly_ok (a : alpha) : Orderly (Except.ok a : Except Thrown alpha) := by
  intro thrown h
  cases h

theorem orderly_bind {x : Except Thrown alpha} {f : alpha -> Except Thrown beta}
    (hx : Orderly x) (hf : forall a, x = Except.ok a -> Orderly (f a)) : Orderly (x >>= f) := by
  cases x with
  | error thrown =>
      intro other hother
      apply hx
      cases hother
      rfl
  | ok a => exact hf a rfl

theorem orderly_fail {message : List Piece} (h : message.all Piece.converts = true) :
    Orderly (fail message : Except Thrown alpha) := by
  intro thrown hthrown
  unfold fail at hthrown
  rw [if_pos h] at hthrown
  cases hthrown
  rfl

theorem orderly_ensure {allowed : Bool} {message : List Piece}
    (h : message.all Piece.converts = true) : Orderly (ensure allowed message) := by
  unfold ensure
  split
  · exact orderly_ok ()
  · exact orderly_fail h

/-!
# Scalars
-/

variable {sizeToBytes : String -> Number}

theorem orderly_sizeOf {field : String} {value : Value} (h : value.converts = true) :
    Orderly (sizeOf sizeToBytes field value) := by
  unfold sizeOf
  split
  · exact orderly_ok _
  · apply orderly_fail
    simp [Piece.converts, h]

theorem orderly_booleanOf {field : String} {value : Value} {fallback : Bool} :
    Orderly (booleanOf field value fallback) := by
  unfold booleanOf
  split
  · exact orderly_ok _
  · exact orderly_ok _
  · exact orderly_fail rfl

theorem orderly_extItems {field : String} {items : List Value} {result : List Ext} :
    Orderly (extItems field result items) := by
  induction items generalizing result with
  | nil => exact orderly_ok _
  | cons item rest ih =>
      cases item with
      | string text => exact orderly_bind (orderly_ensure rfl) (fun _ _ => ih)
      | _ => exact orderly_fail rfl

theorem orderly_extListOf {field : String} {value : Value} : Orderly (extListOf field value) := by
  unfold extListOf
  split
  · exact orderly_extItems
  · exact orderly_fail rfl

theorem orderly_knownKeys {field : String} {value : Value} {allowed : List String} :
    Orderly (knownKeys field value allowed) := by
  unfold knownKeys
  split
  · exact orderly_ok _
  · exact orderly_fail rfl

theorem orderly_mustBeObject {field : String} {raw : Value} : Orderly (mustBeObject field raw) :=
  orderly_ensure rfl

theorem orderly_validateName {name : PlaceName} : Orderly (validateName name) := by
  refine orderly_bind (orderly_ensure rfl) (fun _ _ => ?_)
  exact orderly_bind (orderly_ensure rfl) (fun _ _ => orderly_ensure rfl)

/-!
# Domains
-/

theorem orderly_extOr {field : String} {raw : Value} {wrap : List Ext -> alpha} {absent : alpha} :
    Orderly (extOr field raw wrap absent) := by
  unfold extOr
  split
  · exact orderly_ok _
  · exact orderly_bind orderly_extListOf (fun _ _ => orderly_ok _)

theorem orderly_toggled {field : String} {raw : Value}
    {resolve : Value -> Except Thrown alpha} (h : forall raw', raw' = options raw ->
      Orderly (resolve raw')) : Orderly (toggled field raw resolve) := by
  unfold toggled
  split
  · exact orderly_ok _
  · exact orderly_ok _
  · exact orderly_bind (h _ rfl) (fun _ _ => orderly_ok _)
  next hundefined hfalse htrue =>
    refine orderly_bind (orderly_ensure rfl) (fun _ _ => ?_)
    refine orderly_bind (h _ ?_) (fun _ _ => orderly_ok _)
    unfold options
    split
    · exact absurd rfl htrue
    · rfl

theorem orderly_resolveCodecOptions {field : String} {encoding : Encoding} {raw : Value} :
    Orderly (resolveCodecOptions field encoding raw) := by
  unfold resolveCodecOptions
  split
  · exact orderly_ok _
  · refine orderly_bind orderly_mustBeObject (fun _ _ => ?_)
    refine orderly_bind orderly_knownKeys (fun _ _ => ?_)
    split
    · exact orderly_ok _
    · split
      · exact orderly_ok _
      · exact orderly_fail rfl

theorem orderly_resolveCodecs {field : String} {options : Value} {values : List Value}
    {codecs : List Codec} (h : forall value, value ∈ values -> value.converts = true) :
    Orderly (resolveCodecs field options codecs values) := by
  induction values generalizing codecs with
  | nil => exact orderly_ok _
  | cons value rest ih =>
      unfold resolveCodecs
      split
      · apply orderly_fail
        simp [Piece.converts, h value List.mem_cons_self]
      · refine orderly_bind (orderly_ensure rfl) (fun _ _ => ?_)
        refine orderly_bind orderly_resolveCodecOptions (fun _ _ => ?_)
        exact ih (fun other hother => h other (List.mem_cons_of_mem _ hother))

theorem orderly_resolveCompressExt {field : String} {ext : Value} :
    Orderly (resolveCompressExt field ext) := by
  unfold resolveCompressExt
  split
  · exact orderly_ok _
  · exact orderly_ok _
  · exact orderly_ok _
  · exact orderly_bind orderly_extListOf (fun _ _ => orderly_ok _)

theorem orderly_encodingsOf {field : String} {value : Value} :
    Orderly (encodingsOf field value) := by
  unfold encodingsOf
  split
  · exact orderly_ok _
  · exact orderly_fail rfl

/-- The encodings a message may show have a text. -/
def ShownEncodings (compress : Value) : Prop :=
  forall item, item ∈ itemsOf (compress.get "encodings") -> item.converts = true

theorem orderly_resolveCompress {field : String} {raw : Value} (h : ShownEncodings raw) :
    Orderly (resolveCompress field raw) := by
  unfold resolveCompress
  split
  · exact orderly_ok _
  · refine orderly_bind orderly_mustBeObject (fun _ _ => ?_)
    refine orderly_bind orderly_knownKeys (fun _ _ => ?_)
    refine orderly_bind orderly_encodingsOf (fun values hvalues => ?_)
    refine orderly_bind orderly_mustBeObject (fun _ _ => ?_)
    rcases encodingsOf_ok hvalues with ⟨item, rest, harray, hitems⟩
    have hshown : forall value, value ∈ values -> value.converts = true := by
      intro value hvalue
      apply h value
      rw [harray]
      rw [hitems] at hvalue
      exact hvalue
    refine orderly_bind (orderly_resolveCodecs hshown) (fun _ _ => ?_)
    dsimp only
    split
    · exact orderly_fail rfl
    · refine orderly_bind orderly_resolveCompressExt (fun _ _ => ?_)
      exact orderly_bind orderly_booleanOf (fun _ _ => orderly_ok _)

theorem orderly_resolveScript {field : String} {raw : Value} :
    Orderly (resolveScript field raw) := by
  refine orderly_toggled (fun raw' _ => ?_)
  refine orderly_bind orderly_knownKeys (fun _ _ => ?_)
  refine orderly_bind orderly_extOr (fun _ _ => ?_)
  exact orderly_bind orderly_booleanOf (fun _ _ => orderly_ok _)

theorem orderly_resolveFallback {field : String} {raw : Value} (h : raw.serializes = true) :
    Orderly (resolveFallback field raw) := by
  unfold resolveFallback
  split
  · exact orderly_ok _
  · split
    · exact orderly_ok _
    · apply orderly_fail
      simp [Piece.converts, h]

theorem orderly_resolveFs {field : String} {raw : Value}
    (hcompress : ShownEncodings ((options raw).get "compress"))
    (hfallback : ((options raw).get "fallback").serializes = true) :
    Orderly (resolveFs field raw) := by
  refine orderly_toggled (fun raw' hraw => ?_)
  rw [← hraw] at hcompress hfallback
  refine orderly_bind orderly_knownKeys (fun _ _ => ?_)
  refine orderly_bind orderly_resolveScript (fun _ _ => ?_)
  refine orderly_bind orderly_extOr (fun _ _ => ?_)
  refine orderly_bind orderly_booleanOf (fun _ _ => ?_)
  refine orderly_bind orderly_booleanOf (fun _ _ => ?_)
  refine orderly_bind (orderly_resolveCompress hcompress) (fun _ _ => ?_)
  exact orderly_bind (orderly_resolveFallback hfallback) (fun _ _ => orderly_ok _)

theorem orderly_resolveRequire {field : String} {raw : Value} :
    Orderly (resolveRequire field raw) := by
  refine orderly_toggled (fun raw' _ => ?_)
  refine orderly_bind orderly_knownKeys (fun _ _ => ?_)
  refine orderly_bind orderly_extOr (fun _ _ => ?_)
  exact orderly_bind orderly_booleanOf (fun _ _ => orderly_ok _)

theorem orderly_resolveImport {field : String} {raw : Value} :
    Orderly (resolveImport field raw) := by
  refine orderly_toggled (fun raw' _ => ?_)
  refine orderly_bind orderly_knownKeys (fun _ _ => ?_)
  exact orderly_bind orderly_extOr (fun _ _ => orderly_ok _)

theorem orderly_resolveOrigin {field : String} {raw : Value} {provider : Provider}
    (h : raw.converts = true) : Orderly (resolveOrigin field raw provider) := by
  unfold resolveOrigin
  dsimp only
  split
  · exact orderly_bind (orderly_ensure rfl) (fun _ _ => orderly_ok _)
  · split
    · exact orderly_ok _
    · split
      · exact orderly_ok _
      · apply orderly_fail
        simp [Piece.converts, h]

/-!
# Preparation
-/

theorem orderly_preparerName {field name : String} : Orderly (preparerName field name) :=
  orderly_ensure rfl

theorem orderly_distinctExtList {field : String} {value : Value} :
    Orderly (distinctExtList field value) := by
  refine orderly_bind orderly_extListOf (fun _ _ => ?_)
  split
  · split
    · exact orderly_fail rfl
    · exact orderly_ok _
  · exact orderly_ok _

theorem orderly_assignExts {field name : String} {visible : Option (List Ext)}
    {result : Assigned} {exts : List Ext} :
    Orderly (assignExts field name visible result exts) := by
  induction exts generalizing result with
  | nil => exact orderly_ok _
  | cons ext rest ih =>
      refine orderly_bind (orderly_ensure rfl) (fun _ _ => ?_)
      split
      · exact orderly_fail rfl
      · exact ih

theorem orderly_assignNames {field : String} {visible : Option (List Ext)} {result : Assigned}
    {entries : Entries} : Orderly (assignNames field visible result entries) := by
  induction entries generalizing result with
  | nil => exact orderly_ok _
  | cons entry rest ih =>
      refine orderly_bind orderly_preparerName (fun _ _ => ?_)
      refine orderly_bind orderly_distinctExtList (fun _ _ => ?_)
      exact orderly_bind orderly_assignExts (fun _ _ => ih)

theorem orderly_domainPrepare {field : String} {raw : Value} {scope visible : Option (List Ext)} :
    Orderly (domainPrepare field raw scope visible) := by
  unfold domainPrepare
  split
  · refine orderly_bind orderly_preparerName (fun _ _ => ?_)
    split
    · exact orderly_fail rfl
    · exact orderly_ok _
  · refine orderly_bind (orderly_ensure ?_) (fun _ _ => orderly_assignNames)
    cases raw.isFunction with
    | true => rfl
    | false => rfl

theorem orderly_declarations {field : String} {list : List Declaration} :
    Orderly (declarations field list) := by
  induction list with
  | nil => exact orderly_ok _
  | cons declaration rest ih =>
      refine orderly_bind ?_ (fun _ _ => orderly_bind ih (fun _ _ => orderly_ok _))
      unfold declared
      split
      · split
        · exact orderly_ok _
        · exact orderly_domainPrepare
      · exact orderly_ok _

theorem orderly_indexOf {field : String} {all : List (Ext × Domain × String)}
    {exts : List Ext} : Orderly (indexOf field all exts) := by
  induction exts with
  | nil => exact orderly_ok _
  | cons ext rest ih =>
      unfold indexOf
      split
      · exact orderly_bind ih (fun _ _ => orderly_ok _)
      · exact orderly_fail rfl

theorem orderly_resolvePrepare {name : PlaceName} {raw : Value} {fs : Option FsDomain}
    {require : Option RequireConfig} {imports : Option ImportDomain} :
    Orderly (resolvePrepare name raw fs require imports) := by
  have hown : Orderly (ownExt (raw.get "fs")) := by
    unfold ownExt
    split
    · exact orderly_extOr
    · exact orderly_ok _
  refine orderly_bind hown (fun _ _ => ?_)
  refine orderly_bind orderly_declarations (fun _ _ => ?_)
  split
  · exact orderly_ok _
  · exact orderly_bind orderly_indexOf (fun _ _ => orderly_ok _)

/-!
# Places
-/

theorem orderly_validateRetainRaw {place : Place} {field : String} :
    Orderly (validateRetainRaw place field) := by
  refine orderly_bind (orderly_ensure rfl) (fun _ _ => ?_)
  refine orderly_bind (orderly_ensure rfl) (fun _ _ => ?_)
  refine orderly_bind (orderly_ensure rfl) (fun _ _ => ?_)
  exact orderly_bind (orderly_ensure rfl) (fun _ _ => orderly_ensure rfl)

theorem orderly_validateFs {place : Place} {fs : FsDomain} {field : String} :
    Orderly (validateFs place fs field) := by
  unfold validateFs
  split
  · exact orderly_ensure rfl
  · refine orderly_bind (orderly_ensure rfl) (fun _ _ => ?_)
    refine orderly_bind (orderly_ensure rfl) (fun _ _ => ?_)
    refine orderly_bind (orderly_ensure rfl) (fun _ _ => ?_)
    split
    · exact orderly_validateRetainRaw
    · exact orderly_ok _

theorem orderly_validateVirtual {place : Place} {field : String} :
    Orderly (validateVirtual place field) :=
  orderly_bind (orderly_ensure rfl) (fun _ _ => orderly_ensure rfl)

theorem orderly_validatePlace {place : Place} {global : Global} :
    Orderly (validatePlace place global) := by
  unfold validatePlace
  refine orderly_bind (orderly_ensure rfl) (fun _ _ => ?_)
  refine orderly_bind (orderly_ensure rfl) (fun _ _ => ?_)
  refine orderly_bind (orderly_ensure rfl) (fun _ _ => ?_)
  dsimp only
  split
  · refine orderly_bind orderly_validateVirtual (fun _ _ => ?_)
    refine orderly_bind (orderly_ensure rfl) (fun _ _ => ?_)
    split
    · exact orderly_bind (orderly_ok _) (fun _ _ => orderly_ensure rfl)
    · exact orderly_bind orderly_validateFs (fun _ _ => orderly_ensure rfl)
  · refine orderly_bind (orderly_ok _) (fun _ _ => ?_)
    refine orderly_bind (orderly_ensure rfl) (fun _ _ => ?_)
    split
    · exact orderly_bind (orderly_ok _) (fun _ _ => orderly_ensure rfl)
    · exact orderly_bind orderly_validateFs (fun _ _ => orderly_ensure rfl)

theorem orderly_normalizeFallback {place : Place} {global : Global} :
    Orderly (normalizeFallback place global) := by
  unfold normalizeFallback
  split
  · exact orderly_ok _
  · dsimp only
    split
    · exact orderly_bind (orderly_ensure rfl) (fun _ _ => orderly_ok _)
    · exact orderly_bind (orderly_ensure rfl) (fun _ _ => orderly_ok _)

/-- The options of a place that a message may show have a text. -/
structure PrintablePlace (raw : Value) : Prop where
  provider : (raw.get "provider").converts = true
  origin : (raw.get "origin").converts = true
  maxFileSize : (raw.get "maxFileSize").converts = true
  encodings : ShownEncodings ((options (raw.get "fs")).get "compress")
  fallback : ((options (raw.get "fs")).get "fallback").serializes = true

theorem orderly_providerOf {field : String} {raw : Value} (h : raw.converts = true) :
    Orderly (providerOf field raw) := by
  unfold providerOf
  split
  · exact orderly_ok _
  · split
    · exact orderly_ok _
    · apply orderly_fail
      simp [Piece.converts, h]

theorem orderly_maxFileSizeOf {field : String} {raw : Value} {global : Global}
    (h : (raw.get "maxFileSize").converts = true) :
    Orderly (maxFileSizeOf sizeToBytes field raw global) := by
  unfold maxFileSizeOf
  split
  · exact orderly_ok _
  next size hsize =>
    apply orderly_sizeOf
    rw [← given_get hsize]
    exact h

theorem orderly_resolvePlace {name : PlaceName} {raw : Value} {global : Global}
    (h : PrintablePlace raw) : Orderly (resolvePlace sizeToBytes name raw global) := by
  unfold resolvePlace
  refine orderly_bind orderly_validateName (fun _ _ => ?_)
  refine orderly_bind orderly_mustBeObject (fun _ _ => ?_)
  refine orderly_bind orderly_knownKeys (fun _ _ => ?_)
  refine orderly_bind (orderly_providerOf h.provider) (fun _ _ => ?_)
  refine orderly_bind orderly_booleanOf (fun _ _ => ?_)
  refine orderly_bind (orderly_resolveOrigin h.origin) (fun _ _ => ?_)
  refine orderly_bind (orderly_maxFileSizeOf h.maxFileSize) (fun _ _ => ?_)
  refine orderly_bind (orderly_resolveFs h.encodings h.fallback) (fun _ _ => ?_)
  refine orderly_bind orderly_resolveRequire (fun _ _ => ?_)
  refine orderly_bind orderly_resolveImport (fun _ _ => ?_)
  refine orderly_bind (orderly_ensure rfl) (fun _ _ => ?_)
  refine orderly_bind orderly_resolvePrepare (fun _ _ => ?_)
  exact orderly_bind orderly_validatePlace (fun _ _ => orderly_normalizeFallback)

theorem orderly_resolvePlaces {global : Global} {entries : Entries}
    (h : forall entry, entry ∈ entries -> PrintablePlace entry.2) :
    Orderly (resolvePlaces sizeToBytes global entries) := by
  induction entries with
  | nil => exact orderly_ok _
  | cons entry rest ih =>
      refine orderly_bind (orderly_resolvePlace (h entry List.mem_cons_self)) (fun _ _ => ?_)
      refine orderly_bind (ih (fun other hother => h other (List.mem_cons_of_mem _ hother)))
        (fun _ _ => orderly_ok _)

theorem orderly_validateNames {seen : List (String × PlaceName)} {places : List Place} :
    Orderly (validateNames seen places) := by
  induction places generalizing seen with
  | nil => exact orderly_ok _
  | cons place rest ih =>
      unfold validateNames
      split
      · exact orderly_fail rfl
      · exact ih

/-!
# The defaults
-/

/-- What a merge puts where there was no object. -/
def copied (value : Value) : Value :=
  if isObject value then mergeDeep (Value.object []) value else value

/-- The sizes of the defaults that a message may show have a text. -/
def ShownSizes (value : Value) : Prop :=
  forall name size, (value.get "memory").own.lookup name = some size ->
    (copied size).converts = true

theorem orderly_thresholdOf {value : Value} : Orderly (thresholdOf value) := by
  unfold thresholdOf
  split
  · exact orderly_ok _
  · exact orderly_fail rfl

theorem orderly_watchTimeoutOf {value : Value} : Orderly (watchTimeoutOf value) := by
  unfold watchTimeoutOf
  split
  · exact orderly_ok _
  · exact orderly_fail rfl

theorem orderly_read {value : Value} {name : String} (h : isObject value = true) :
    Orderly (read value name) := by
  have hnullish : value.isNullish = false := by
    cases value with
    | object entries => rfl
    | derived proto entries => rfl
    | _ => cases h
  unfold read
  rw [hnullish]
  exact orderly_ok _

theorem orderly_resolveMemory {value : Value} (hobject : isObject value = true)
    (h : forall name, name ∈ ["limit", "segmentSize", "maxFileSize"] ->
      (value.get name).converts = true) : Orderly (resolveMemory sizeToBytes value) := by
  have hread : forall {name result}, name ∈ ["limit", "segmentSize", "maxFileSize"] ->
      read value name = Except.ok result -> result.converts = true := by
    intro name result hname hresult
    rw [read_ok hresult]
    exact h name hname
  refine orderly_bind (orderly_read hobject) (fun _ hlimit => ?_)
  refine orderly_bind (orderly_sizeOf (hread (by decide) hlimit)) (fun _ _ => ?_)
  refine orderly_bind (orderly_read hobject) (fun _ hsegment => ?_)
  refine orderly_bind (orderly_sizeOf (hread (by decide) hsegment)) (fun _ _ => ?_)
  refine orderly_bind (orderly_read hobject) (fun _ hfile => ?_)
  exact orderly_bind (orderly_sizeOf (hread (by decide) hfile)) (fun _ _ => orderly_ok _)

theorem orderly_resolveHooks {value : Value} (hobject : isObject value = true) :
    Orderly (resolveHooks value) := by
  refine orderly_bind (orderly_read hobject) (fun _ _ => ?_)
  refine orderly_bind orderly_booleanOf (fun _ _ => ?_)
  refine orderly_bind (orderly_read hobject) (fun _ _ => ?_)
  exact orderly_bind orderly_booleanOf (fun _ _ => orderly_ok _)

/-- A section after the merge is an object when the written one is. -/
theorem isObject_merged_section {value : Value} {names : List String} {name : String}
    (hsection : Section value names) (hnames : Value.protoKey ∉ names)
    (hdefault : isObject (defaults.get name) = true)
    (hwritten : name ∈ value.keys -> isObject (value.get name) = true) :
    isObject ((mergeDeep defaults value).get name) = true := by
  have hget := hsection.get hnames defaults.own name
  change (mergeDeep defaults value).get name = _ at hget
  rw [hget]
  split
  next hmem => exact isObject_mergedAt.trans (hwritten hmem)
  next => exact hdefault

theorem converts_merged_size {value : Value} (hproper : value.proper = true)
    (hkeys : (Shape.record [("limit", Shape.anything), ("segmentSize", Shape.anything),
      ("maxFileSize", Shape.anything)]).fits value = true)
    (hshown : forall name size, value.own.lookup name = some size ->
      (copied size).converts = true) :
    forall name, name ∈ ["limit", "segmentSize", "maxFileSize"] ->
      ((mergeDeep (Value.object memoryDefaults) value).get name).converts = true := by
  intro name hname
  have hsection := section_of_fits hkeys hproper
  have hproto : Value.protoKey ∉ ["limit", "segmentSize", "maxFileSize"] := by decide
  rw [hsection.get hproto]
  have htarget : isObject ((Value.object memoryDefaults).get name) = false ∧
      ((Value.object memoryDefaults).get name).converts = true := by
    simp only [List.mem_cons, List.not_mem_nil, or_false] at hname
    rcases hname with heq | heq | heq
    · rw [heq]
      exact ⟨rfl, rfl⟩
    · rw [heq]
      exact ⟨rfl, rfl⟩
    · rw [heq]
      exact ⟨rfl, rfl⟩
  split
  next hmem =>
    rcases lookup_of_mem_keys hmem with ⟨size, hsize⟩
    rw [get_of_own hsection.isObject hsize]
    have hcopied : mergedAt (Value.object memoryDefaults) name size = copied size := by
      unfold mergedAt copied container
      rw [htarget.1]
      rfl
    rw [hcopied]
    exact hshown name size hsize
  next => exact htarget.2

theorem orderly_resolveGlobal {value : Value} (hproper : value.proper = true)
    (hkeys : keysShape.fits value = true) (hshown : ShownSizes value) :
    Orderly (resolveGlobal sizeToBytes (orEmpty value)) := by
  have hsections : isObject ((mergeDeep defaults (orEmpty value)).get "compaction") = true ∧
      isObject ((mergeDeep defaults (orEmpty value)).get "memory") = true ∧
      isObject ((mergeDeep defaults (orEmpty value)).get "hooks") = true ∧
      forall name, name ∈ ["limit", "segmentSize", "maxFileSize"] ->
        (((mergeDeep defaults (orEmpty value)).get "memory").get name).converts = true := by
    rcases keysShape_cases hkeys with hundefined | ⟨hobject, hknown, hmemory, hcompaction, hhooks⟩
    · have hempty : orEmpty value = Value.object [] := by
        cases value with
        | undefined => rfl
        | _ => cases hundefined
      rw [hempty]
      refine ⟨rfl, rfl, rfl, ?_⟩
      exact List.forall_mem_cons.mpr ⟨rfl, List.forall_mem_cons.mpr
        ⟨rfl, List.forall_mem_singleton.mpr rfl⟩⟩
    · rw [orEmpty_of_isObject hobject]
      have hsection : Section value sectionNames :=
        ⟨hobject, hknown, (proper_cases hproper hobject).1⟩
      have hrecord : forall {fields : List (String × Shape)} {v : Value},
          (Shape.record fields).fits v = true -> isObject v = true := by
        intro fields v hfits
        exact (isRecord_eq v).symm.trans (Shape.fits_record.mp hfits).1
      refine ⟨?_, ?_, ?_, ?_⟩
      · exact isObject_merged_section hsection (by decide) rfl
          (fun hmem => hrecord (hcompaction hmem))
      · exact isObject_merged_section hsection (by decide) rfl
          (fun hmem => hrecord (hmemory hmem))
      · exact isObject_merged_section hsection (by decide) rfl
          (fun hmem => hrecord (hhooks hmem))
      · have hget := hsection.get (by decide) defaults.own "memory"
        change (mergeDeep defaults value).get "memory" = _ at hget
        rw [hget]
        split
        next hmem =>
          have hmerged : mergedAt (Value.object defaults.own) "memory" (value.get "memory") =
              mergeDeep (Value.object memoryDefaults) (value.get "memory") :=
            merged_section (hrecord (hmemory hmem)) (by rfl)
          rw [hmerged]
          exact converts_merged_size (proper_get value hproper "memory") (hmemory hmem) hshown
        next =>
          exact List.forall_mem_cons.mpr ⟨rfl, List.forall_mem_cons.mpr
            ⟨rfl, List.forall_mem_singleton.mpr rfl⟩⟩
  rcases hsections with ⟨hcompaction, hmemory, hhooks, hsizes⟩
  unfold resolveGlobal
  dsimp only
  rw [deepClone_defaults]
  refine orderly_bind orderly_knownKeys (fun _ _ => ?_)
  refine orderly_bind (orderly_read hcompaction) (fun _ _ => ?_)
  refine orderly_bind orderly_thresholdOf (fun _ _ => ?_)
  refine orderly_bind orderly_watchTimeoutOf (fun _ _ => ?_)
  refine orderly_bind (orderly_resolveMemory hmemory hsizes) (fun _ _ => ?_)
  refine orderly_bind (orderly_resolveHooks hhooks) (fun _ _ => ?_)
  refine orderly_bind orderly_booleanOf (fun _ _ => ?_)
  refine orderly_bind orderly_booleanOf (fun _ _ => ?_)
  refine orderly_bind (orderly_ensure rfl) (fun _ _ => ?_)
  exact orderly_bind (orderly_ensure rfl) (fun _ _ => orderly_ok _)

/-!
# A section that is missing
-/

theorem put_spec {target : Value} (hobject : isObject target = true) {name : String}
    (hname : name ≠ Value.protoKey) (value : Value) (other : String) :
    (target.put name value).get other = if other = name then value else target.get other := by
  cases target with
  | object entries => exact Value.get_put_object hname value entries other
  | derived proto entries => exact Value.get_put_derived hname value proto entries other
  | _ => cases hobject

theorem keys_put {target : Value} (hobject : isObject target = true) {name : String}
    (hname : name ≠ Value.protoKey) {value : Value} {key : String} :
    key ∈ (target.put name value).keys <-> key = name ∨ key ∈ target.keys := by
  show key ∈ (target.put name value).own.map Prod.fst <-> _
  rw [own_put hobject hname, OrderedMap.mem_keys_setEntries]
  rfl

/-- Merging a section that is no object puts it in place of the default. -/
theorem mergeDeep_put {source section_ : Value} {name : String} (hname : name ≠ Value.protoKey)
    (hobject : isObject source = true) (hproto : Value.protoKey ∉ source.keys)
    (hnodup : source.keys.Nodup) (hsection : isObject section_ = false) :
    mergeDeep defaults (source.put name section_) =
      (mergeDeep defaults source).put name section_ := by
  have hinto : forall v : Value, isObject v = true ->
      mergeDeep defaults v = mergeInto defaults defaults.spread v.own := by
    intro v hv
    cases v with
    | object entries => rfl
    | derived proto entries => rfl
    | _ => cases hv
  have hkeys : forall entry, entry ∈ source.own -> entry.1 ≠ Value.protoKey := by
    intro entry hentry heq
    exact hproto (List.mem_map.mpr ⟨entry, hentry, heq⟩)
  rw [hinto _ (isObject_put hobject _ _), hinto _ hobject, own_put hobject hname]
  have hmerged := @mergeInto_setEntries defaults source.own defaults.own name hname hkeys hnodup
    section_
  unfold mergedAt at hmerged
  rw [hsection] at hmerged
  exact hmerged

theorem isObject_mergeDeep {target source : Value} (h : isObject target = true) :
    isObject (mergeDeep target source) = true := by
  cases source with
  | object entries => exact isObject_mergeInto rfl
  | derived proto entries => exact isObject_mergeInto rfl
  | _ => exact h

theorem read_nullish {section_ : Value} {name : String} (h : section_.isNullish = true) :
    read section_ name = Except.error Thrown.other := if_pos h

/-- Accepted defaults with one section set to {lit}`null` or {lit}`undefined` end in an
exception that is no error of the library. -/
theorem resolveGlobal_nullish {value section_ : Value} {global : Global} {name : String}
    (hproper : value.proper = true) (hobject : isObject value = true)
    (hproto : Value.protoKey ∉ value.keys)
    (hname : name ∈ ["memory", "compaction", "hooks"]) (hsection : section_.isNullish = true)
    (h : resolveGlobal sizeToBytes value = Except.ok global) :
    resolveGlobal sizeToBytes (value.put name section_) = Except.error Thrown.other := by
  have hproto' : name ≠ Value.protoKey := by
    intro heq
    rw [heq] at hname
    revert hname
    decide
  have hplain : isObject section_ = false := by
    cases section_ with
    | undefined => rfl
    | null => rfl
    | _ => cases hsection
  have hmerge : mergeDeep (deepClone defaults) (value.put name section_) =
      (mergeDeep (deepClone defaults) value).put name section_ := by
    rw [deepClone_defaults]
    exact mergeDeep_put hproto' hobject hproto (proper_cases hproper hobject).1 hplain
  have hmerged : isObject (mergeDeep (deepClone defaults) value) = true :=
    isObject_mergeDeep rfl
  have hget := put_spec hmerged hproto' section_
  rcases bind_ok.mp h with ⟨_, hknown, h⟩
  rcases bind_ok.mp h with ⟨compaction, hcompaction, h⟩
  rcases bind_ok.mp h with ⟨threshold, hthreshold, h⟩
  rcases bind_ok.mp h with ⟨watchTimeout, hwatchTimeout, h⟩
  rcases bind_ok.mp h with ⟨memory, hmemory, _⟩
  have hknown' : knownKeys "defaults" ((mergeDeep (deepClone defaults) value).put name section_)
      defaults.keys = Except.ok () := by
    rw [knownKeys_ok] at hknown ⊢
    intro key hkey
    cases (keys_put hmerged hproto').mp hkey with
    | inr hmem => exact hknown key hmem
    | inl heq =>
        rw [heq]
        simp only [List.mem_cons, List.not_mem_nil, or_false] at hname
        rcases hname with heq | heq | heq <;> rw [heq] <;> decide
  unfold resolveGlobal
  dsimp only
  rw [hmerge, hknown', hget, hget, hget, hget]
  simp only [List.mem_cons, List.not_mem_nil, or_false] at hname
  rcases hname with heq | heq | heq
  · rw [heq, if_neg (by decide), if_neg (by decide), if_pos rfl, hcompaction]
    show (thresholdOf compaction >>= _) = _
    rw [hthreshold]
    show (watchTimeoutOf _ >>= _) = _
    rw [hwatchTimeout]
    show ((resolveMemory sizeToBytes section_) >>= _) = _
    unfold resolveMemory
    rw [read_nullish hsection]
    rfl
  · rw [heq, if_pos rfl, read_nullish hsection]
    rfl
  · rw [heq, if_neg (by decide), if_neg (by decide), if_neg (by decide), if_pos rfl, hcompaction]
    show (thresholdOf compaction >>= _) = _
    rw [hthreshold]
    show (watchTimeoutOf _ >>= _) = _
    rw [hwatchTimeout]
    show (resolveMemory sizeToBytes _ >>= _) = _
    rw [hmemory]
    show ((resolveHooks section_) >>= _) = _
    unfold resolveHooks
    rw [read_nullish hsection]
    rfl

/-!
# Whole configs
-/

/-- What is accepted fits the schema, and what is refused is refused by an error of the
library. -/
structure Strict (sizeToBytes : String -> Number) (raw : Value) : Prop where
  accepted : forall config, VfsConfig.new sizeToBytes raw = Except.ok config ->
    WellFormed sizeToBytes raw
  refused : Orderly (VfsConfig.new sizeToBytes raw)

/-- The defaults are an object, so is each of their sections, and every option is known. -/
def KnownSections (raw : Value) : Prop := keysShape.fits (raw.get "defaults") = true

/-- Whatever a message may show has a text. -/
structure Printable (raw : Value) : Prop where
  sizes : ShownSizes (raw.get "defaults")
  places : forall entry, entry ∈ placeEntries raw -> PrintablePlace entry.2

theorem orderly_new {raw : Value} (hproper : raw.proper = true) (hknown : KnownSections raw)
    (hprintable : Printable raw) : Orderly (VfsConfig.new sizeToBytes raw) := by
  refine orderly_bind (orderly_ensure rfl) (fun _ _ => ?_)
  refine orderly_bind orderly_knownKeys (fun _ _ => ?_)
  refine orderly_bind ?_ (fun _ _ => ?_)
  · exact orderly_resolveGlobal (proper_get raw hproper "defaults") hknown hprintable.sizes
  · refine orderly_bind (orderly_ensure rfl) (fun _ _ => ?_)
    refine orderly_bind (orderly_resolvePlaces hprintable.places) (fun _ _ => ?_)
    exact orderly_bind orderly_validateNames (fun _ _ => orderly_ok _)

theorem wellFormed_of_new {raw : Value} {config : VfsConfig} (hproper : raw.proper = true)
    (hknown : KnownSections raw) (h : VfsConfig.new sizeToBytes raw = Except.ok config) :
    WellFormed sizeToBytes raw := by
  rcases new_ok h with ⟨_, hkeys, hglobal, _⟩
  exact ⟨knownKeys_ok.mp hkeys, defaults_fits (proper_get raw hproper "defaults") hknown hglobal,
    places_fits h⟩

/-- A section set to {lit}`null` or {lit}`undefined`. -/
def withSection (raw : Value) (name : String) (section_ : Value) : Value :=
  raw.put "defaults" ((orEmpty (raw.get "defaults")).put name section_)

theorem new_withSection {raw section_ : Value} {config : VfsConfig} {name : String}
    (hproper : raw.proper = true) (hknown : KnownSections raw)
    (hname : name ∈ ["memory", "compaction", "hooks"]) (hsection : section_.isNullish = true)
    (h : VfsConfig.new sizeToBytes raw = Except.ok config) :
    VfsConfig.new sizeToBytes (withSection raw name section_) = Except.error Thrown.other := by
  rcases new_ok h with ⟨hobject, hkeys, hglobal, _⟩
  have hdefaults : isObject (orEmpty (raw.get "defaults")) = true ∧
      (orEmpty (raw.get "defaults")).proper = true ∧
      Value.protoKey ∉ (orEmpty (raw.get "defaults")).keys := by
    rcases keysShape_cases hknown with hundefined | ⟨hsectionObject, hnames, _⟩
    · have hempty : orEmpty (raw.get "defaults") = Value.object [] := by
        cases hvalue : raw.get "defaults" with
        | undefined => rfl
        | _ =>
            rw [hvalue] at hundefined
            cases hundefined
      rw [hempty]
      exact ⟨rfl, rfl, List.not_mem_nil⟩
    · rw [orEmpty_of_isObject hsectionObject]
      refine ⟨hsectionObject, proper_get raw hproper "defaults", ?_⟩
      intro hproto
      have hmem := hnames _ hproto
      revert hmem
      decide
  have hthrown := resolveGlobal_nullish hdefaults.2.1 hdefaults.1 hdefaults.2.2 hname hsection
    hglobal
  have hobject' : isObject (withSection raw name section_) = true := isObject_put hobject _ _
  have hkeys' : knownKeys "config" (withSection raw name section_) ["defaults", "places"] =
      Except.ok () := by
    rw [knownKeys_ok] at hkeys ⊢
    intro key hkey
    cases (keys_put hobject (by decide)).mp hkey with
    | inl heq =>
        rw [heq]
        exact List.mem_cons_self
    | inr hmem => exact hkeys key hmem
  have hget : orEmpty ((withSection raw name section_).get "defaults") =
      (orEmpty (raw.get "defaults")).put name section_ := by
    unfold withSection
    rw [put_spec hobject (by decide), if_pos rfl]
    exact orEmpty_of_isObject (isObject_put hdefaults.1 _ _)
  unfold VfsConfig.new
  rw [hobject', hkeys', hget, hthrown]
  rfl

/-- One place, and a misspelled hook. -/
def strayHook : Value :=
  onePlace.put "defaults"
    (Value.object [("hooks", Value.object [("moduel", Value.boolean false)])])

end Config
end SharedMemoryFs
