import SharedMemoryFs.Config.Overrides
import SharedMemoryFs.Foundation.Schema

/-!
# The schema of a config

The options every section of a config has, and what each of them holds.  What is
accepted fits the schema in all of its places; in the defaults only the names of the
sections are checked.
-/

namespace SharedMemoryFs
namespace Config

open Foundation

/-!
# Shapes of the options
-/

def isBoolean : Value -> Bool
  | Value.boolean _ => true
  | _ => false

def isText (text : String) : Value -> Bool
  | Value.string other => other == text
  | _ => false

def isExtItem : Value -> Bool
  | Value.string text => isExtension text
  | _ => false

def isExtList : Value -> Bool
  | Value.array (item :: rest) => (item :: rest).all isExtItem
  | _ => false

def isEncodings : Value -> Bool
  | Value.array (item :: rest) =>
      (item :: rest).all (fun value => (named encodingNames value).isSome)
  | _ => false

def isPreparer : Value -> Bool
  | Value.string name => isPreparerName name
  | _ => false

def flagShape : Shape := Shape.optional (Shape.leaf isBoolean)

def extShape : Shape := Shape.leaf isExtList

def oneOf {alpha : Type} (names : List (String × alpha)) : Shape :=
  Shape.leaf (fun value => (named names value).isSome)

/-- Off, on, or an object of options. -/
def domainShape (shape : Shape) : Shape :=
  Shape.optional (Shape.either (Shape.leaf isBoolean) shape)

def codecShape (encoding : Encoding) : Shape :=
  Shape.either (Shape.leaf Value.isNullish)
    (Shape.record [("level",
      Shape.optional (Shape.leaf (fun value => (levelOf (levelRange encoding) value).isSome)))])

/-- The options of the codecs by their names. -/
def codecFields : List (String × Shape) :=
  encodingNames.map (fun entry => (entry.1, codecShape entry.2))

def compressShape : Shape :=
  Shape.either (Shape.leaf isOff)
    (Shape.record
      [("encodings", Shape.leaf isEncodings),
        ("options", Shape.optional (Shape.record codecFields)),
        ("ext", Shape.either (Shape.leaf Value.isNullish)
          (Shape.either (Shape.leaf (isText "compressible")) extShape)),
        ("retainRaw", flagShape)])

def scriptShape : Shape :=
  domainShape (Shape.record [("ext", Shape.optional extShape), ("compile", flagShape)])

/-- The names of the preparers are data. -/
def prepareShape : Shape :=
  Shape.optional (Shape.either (Shape.leaf isPreparer) (Shape.dictionary extShape))

def fsShape : Shape :=
  domainShape
    (Shape.record
      [("ext", Shape.optional extShape), ("writable", flagShape), ("zeroCopy", flagShape),
        ("compress", compressShape), ("script", scriptShape), ("prepare", prepareShape),
        ("fallback", Shape.optional (oneOf fallbackNames))])

def requireShape : Shape :=
  domainShape
    (Shape.record
      [("ext", Shape.optional extShape), ("compile", flagShape), ("prepare", prepareShape)])

def importShape : Shape :=
  domainShape (Shape.record [("ext", Shape.optional extShape), ("prepare", prepareShape)])

variable (sizeToBytes : String -> Number)

def sizeShape : Shape :=
  Shape.leaf (fun value => (bytesOf sizeToBytes value).any (fun bytes => decide (0 < bytes)))

def placeShape : Shape :=
  Shape.record
    [("enabled", flagShape), ("provider", Shape.optional (oneOf providerNames)),
      ("origin", Shape.optional (oneOf originNames)),
      ("maxFileSize", Shape.optional (sizeShape sizeToBytes)), ("fs", fsShape),
      ("require", requireShape), ("import", importShape)]

/-- The names of the places are data. -/
def placesShape : Shape := Shape.optional (Shape.dictionary (placeShape sizeToBytes))

/-- The sections of the defaults with a shape for each of their options. -/
def sectionsShape (size threshold flag watchTimeout : Shape) : Shape :=
  Shape.optional
    (Shape.record
      [("memory",
          Shape.record [("limit", size), ("segmentSize", size), ("maxFileSize", size)]),
        ("compaction", Shape.record [("threshold", threshold)]),
        ("hooks", Shape.record [("fs", flag), ("module", flag)]),
        ("watch", flag), ("watchTimeout", watchTimeout), ("strict", flag)])

def defaultsShape : Shape :=
  sectionsShape (sizeShape sizeToBytes) (Shape.leaf (fun value => (fraction value).isSome))
    flagShape (Shape.leaf (fun value => (timeout value).isSome))

/-- Every section is an object, with no other options than its own. -/
def keysShape : Shape :=
  sectionsShape Shape.anything Shape.anything Shape.anything Shape.anything

/-- Every own key of the config is an option that is read, with a value of its shape. -/
structure WellFormed (raw : Value) : Prop where
  known : forall key, key ∈ raw.keys -> key ∈ ["defaults", "places"]
  defaults : (defaultsShape sizeToBytes).fits (raw.get "defaults") = true
  places : (placesShape sizeToBytes).fits (raw.get "places") = true

variable {sizeToBytes}

/-!
# What the checks accept
-/

theorem isRecord_eq (value : Value) : value.isRecord = isObject value := by
  cases value <;> rfl

/-- An object that passed the check of its keys, and whose options fit. -/
theorem record_of_known {field : String} {value : Value} {allowed : List String} {u : Unit}
    {fields : List (String × Shape)} (hobject : isObject value = true)
    (hknown : knownKeys field value allowed = Except.ok u)
    (hallowed : fields.map Prod.fst = allowed)
    (hfields : forall entry, entry ∈ fields -> entry.2.fits (value.get entry.1) = true) :
    (Shape.record fields).fits value = true := by
  apply Shape.record_of_fields
  · rw [isRecord_eq]
    exact hobject
  · rw [hallowed]
    exact knownKeys_ok.mp hknown
  · exact hfields

theorem optional_of_given {shape : Shape} {raw : Value} {name : String}
    (h : forall value, given raw name = some value -> shape.fits value = true) :
    shape.optional.fits (raw.get name) = true := by
  unfold given at h
  cases hundefined : (raw.get name).isUndefined with
  | true => exact Shape.fits_optional.mpr (Or.inl hundefined)
  | false =>
      rw [hundefined] at h
      exact Shape.fits_optional.mpr (Or.inr (h _ rfl))

theorem booleanOf_fits {field : String} {value : Value} {fallback b : Bool}
    (h : booleanOf field value fallback = Except.ok b) : flagShape.fits value = true := by
  cases value with
  | undefined => rfl
  | boolean b => rfl
  | _ => exact absurd h fail_ne_ok

theorem sizeOf_fits {field : String} {value : Value} {bytes : Nat}
    (h : sizeOf sizeToBytes field value = Except.ok bytes) :
    (sizeShape sizeToBytes).fits value = true := by
  unfold sizeOf at h
  show (bytesOf sizeToBytes value).any _ = true
  cases hbytes : bytesOf sizeToBytes value with
  | none =>
      rw [hbytes] at h
      exact absurd h fail_ne_ok
  | some n =>
      rw [hbytes, Option.filter_some] at h
      split at h
      next hsome =>
        split at hsome
        next hpos => exact hpos
        next => cases hsome
      next => exact absurd h fail_ne_ok

theorem extItems_fits {field : String} {items : List Value} {result list : List Ext}
    (h : extItems field result items = Except.ok list) : items.all isExtItem = true := by
  induction items generalizing result with
  | nil => rfl
  | cons item rest ih =>
      cases item with
      | string text =>
          rcases bind_ok.mp h with ⟨_, hext, hrest⟩
          rw [List.all_cons, Bool.and_eq_true]
          exact ⟨ensure_ok.mp hext, ih hrest⟩
      | _ => exact absurd h fail_ne_ok

theorem extListOf_fits {field : String} {value : Value} {list : List Ext}
    (h : extListOf field value = Except.ok list) : extShape.fits value = true := by
  unfold extListOf at h
  split at h
  next item rest => exact extItems_fits h
  next => exact absurd h fail_ne_ok

theorem extOr_fits {alpha : Type} {field : String} {raw : Value} {wrap : List Ext -> alpha}
    {absent result : alpha} (h : extOr field raw wrap absent = Except.ok result) :
    (Shape.optional extShape).fits (raw.get "ext") = true := by
  apply optional_of_given
  intro ext hext
  unfold extOr at h
  rw [hext] at h
  rcases bind_ok.mp h with ⟨list, hlist, _⟩
  exact extListOf_fits hlist

/-- A domain fits when the object it is read from does. -/
theorem toggled_fits {alpha : Type} {field : String} {raw : Value} {shape : Shape}
    {resolve : Value -> Except Thrown alpha} {domain : Option alpha}
    (h : toggled field raw resolve = Except.ok domain)
    (hresolve : forall a, isObject raw = true -> resolve raw = Except.ok a ->
      shape.fits raw = true) : (domainShape shape).fits raw = true := by
  apply Shape.fits_optional.mpr
  rcases toggled_ok h with ⟨_, hundefined | hfalse⟩ | ⟨a, _, hoptions, htrue | hobject⟩
  · rw [hundefined]
    exact Or.inl rfl
  · rw [hfalse]
    exact Or.inr rfl
  · rw [htrue]
    exact Or.inr rfl
  · have hself : options raw = raw := by
      cases raw with
      | boolean b => cases hobject
      | _ => rfl
    rw [hself] at hoptions
    exact Or.inr (Shape.fits_either.mpr (Or.inr (hresolve a hobject hoptions)))

/-!
# Codecs
-/

theorem resolveCodecOptions_fits {field : String} {encoding : Encoding} {raw : Value}
    {level : Option Int} (h : resolveCodecOptions field encoding raw = Except.ok level) :
    (codecShape encoding).fits raw = true := by
  apply Shape.fits_either.mpr
  unfold resolveCodecOptions at h
  split at h
  next hnullish => exact Or.inl hnullish
  next =>
    rcases bind_ok.mp h with ⟨_, hobject, h⟩
    rcases bind_ok.mp h with ⟨_, hknown, h⟩
    refine Or.inr (record_of_known (ensure_ok.mp hobject) hknown rfl ?_)
    intro entry hentry
    rw [List.mem_singleton.mp hentry]
    apply optional_of_given
    intro value hvalue
    rw [hvalue] at h
    show (levelOf (levelRange encoding) value).isSome = true
    cases hlevel : levelOf (levelRange encoding) value with
    | some level => rfl
    | none =>
        simp only [hlevel] at h
        exact absurd h fail_ne_ok

theorem resolveCodecs_fits {field : String} {options : Value} {values : List Value}
    {codecs result : List Codec}
    (h : resolveCodecs field options codecs values = Except.ok result) :
    values.all (fun value => (named encodingNames value).isSome) = true ∧
      forall codec, codec ∈ result -> codec ∈ codecs ∨
        (codecShape codec.encoding).fits
          (options.get (nameOf encodingNames codec.encoding)) = true := by
  induction values generalizing codecs with
  | nil =>
      cases h
      exact ⟨rfl, fun codec hcodec => Or.inl hcodec⟩
  | cons value rest ih =>
      unfold resolveCodecs at h
      split at h
      · exact absurd h fail_ne_ok
      next encoding hencoding =>
        rcases bind_ok.mp h with ⟨_, _, h⟩
        rcases bind_ok.mp h with ⟨level, hlevel, h⟩
        rcases ih h with ⟨hall, hcodecs⟩
        constructor
        · rw [List.all_cons, hencoding, hall]
          rfl
        · intro codec hcodec
          cases hcodecs codec hcodec with
          | inr hfits => exact Or.inr hfits
          | inl hmem =>
              cases List.mem_append.mp hmem with
              | inl hbefore => exact Or.inl hbefore
              | inr hlast =>
                  rw [List.mem_singleton.mp hlast]
                  exact Or.inr (resolveCodecOptions_fits hlevel)

theorem codecFields_lookup (encoding : Encoding) :
    codecFields.lookup (nameOf encodingNames encoding) = some (codecShape encoding) := by
  cases encoding <;> rfl

/-- The options of the codecs fit when none is set for an encoding that is not used. -/
theorem codecOptions_fits {field : String} {options : Value} {values : List Value}
    {codecs : List Codec} (hobject : isObject options = true)
    (h : resolveCodecs field options [] values = Except.ok codecs)
    (hkeys : options.keys.find? (fun key =>
      !(codecs.map (fun codec => nameOf encodingNames codec.encoding)).contains key) = none) :
    (Shape.record codecFields).fits options = true := by
  refine Shape.fits_record.mpr ⟨(isRecord_eq options).trans hobject, ?_⟩
  intro key hkey
  have hseen := List.find?_eq_none.mp hkeys key hkey
  rw [Bool.not_eq_true', Bool.not_eq_false, List.contains_iff_mem, List.mem_map] at hseen
  rcases hseen with ⟨codec, hcodec, hname⟩
  rw [← hname]
  refine ⟨_, codecFields_lookup codec.encoding, ?_⟩
  exact ((resolveCodecs_fits h).2 codec hcodec).resolve_left List.not_mem_nil

theorem resolveCompressExt_fits {field : String} {ext : Value} {list : Option (List Ext)}
    (h : resolveCompressExt field ext = Except.ok list) :
    (Shape.either (Shape.leaf Value.isNullish)
      (Shape.either (Shape.leaf (isText "compressible")) extShape)).fits ext = true := by
  apply Shape.fits_either.mpr
  unfold resolveCompressExt at h
  split at h
  next => exact Or.inl rfl
  next => exact Or.inl rfl
  next => exact Or.inr rfl
  next =>
    rcases bind_ok.mp h with ⟨exts, hexts, _⟩
    exact Or.inr (Shape.fits_either.mpr (Or.inr (extListOf_fits hexts)))

theorem encodingsOf_ok {field : String} {value : Value} {items : List Value}
    (h : encodingsOf field value = Except.ok items) :
    exists item rest, value = Value.array (item :: rest) ∧ items = item :: rest := by
  unfold encodingsOf at h
  split at h
  next item rest =>
    cases h
    exact ⟨item, rest, rfl, rfl⟩
  next => exact absurd h fail_ne_ok

theorem resolveCompress_fits {field : String} {raw : Value} {compress : Option CompressConfig}
    (h : resolveCompress field raw = Except.ok compress) : compressShape.fits raw = true := by
  apply Shape.fits_either.mpr
  unfold resolveCompress at h
  split at h
  next hoff => exact Or.inl hoff
  next =>
    rcases bind_ok.mp h with ⟨_, hobject, h⟩
    rcases bind_ok.mp h with ⟨_, hknown, h⟩
    rcases bind_ok.mp h with ⟨values, hvalues, h⟩
    rcases bind_ok.mp h with ⟨_, hoptions, h⟩
    rcases bind_ok.mp h with ⟨codecs, hcodecs, h⟩
    dsimp only at h
    split at h
    · exact absurd h fail_ne_ok
    next hkeys =>
      rcases bind_ok.mp h with ⟨ext, hext, h⟩
      rcases bind_ok.mp h with ⟨retainRaw, hretain, h⟩
      rcases encodingsOf_ok hvalues with ⟨item, rest, harray, hitems⟩
      refine Or.inr (record_of_known (ensure_ok.mp hobject) hknown rfl ?_)
      have hencodings : (Shape.leaf isEncodings).fits (raw.get "encodings") = true := by
        rw [harray]
        rw [hitems] at hcodecs
        exact (resolveCodecs_fits hcodecs).1
      have hcodecOptions :
          (Shape.optional (Shape.record codecFields)).fits (raw.get "options") = true := by
        apply optional_of_given
        intro value hvalue
        rw [hvalue] at hoptions hcodecs hkeys
        exact codecOptions_fits (ensure_ok.mp hoptions) hcodecs hkeys
      refine List.forall_mem_cons.mpr ⟨hencodings, List.forall_mem_cons.mpr ⟨hcodecOptions, ?_⟩⟩
      exact List.forall_mem_cons.mpr ⟨resolveCompressExt_fits hext,
        List.forall_mem_singleton.mpr (booleanOf_fits hretain)⟩

/-!
# Domains
-/

theorem resolveScript_fits {field : String} {raw : Value} {script : Option ScriptConfig}
    (h : resolveScript field raw = Except.ok script) : scriptShape.fits raw = true := by
  refine toggled_fits h ?_
  intro a hobject h
  rcases bind_ok.mp h with ⟨_, hknown, h⟩
  rcases bind_ok.mp h with ⟨ext, hext, h⟩
  rcases bind_ok.mp h with ⟨compile, hcompile, _⟩
  refine record_of_known hobject hknown rfl (List.forall_mem_cons.mpr ⟨extOr_fits hext, ?_⟩)
  exact List.forall_mem_singleton.mpr (booleanOf_fits hcompile)

theorem resolveFallback_fits {field : String} {raw : Value} {fallback : Option Fallback}
    (h : resolveFallback field raw = Except.ok fallback) :
    (Shape.optional (oneOf fallbackNames)).fits raw = true := by
  apply Shape.fits_optional.mpr
  unfold resolveFallback at h
  split at h
  next hundefined => exact Or.inl hundefined
  next =>
    split at h
    next fallback hnamed =>
      right
      show (named fallbackNames raw).isSome = true
      rw [hnamed]
      rfl
    next => exact absurd h fail_ne_ok

theorem assignNames_fits {field : String} {visible : Option (List Ext)} {entries : Entries}
    {result assigned : Assigned}
    (h : assignNames field visible result entries = Except.ok assigned) :
    forall entry, entry ∈ entries -> extShape.fits entry.2 = true := by
  induction entries generalizing result with
  | nil => exact fun entry hentry => absurd hentry List.not_mem_nil
  | cons first rest ih =>
      rcases bind_ok.mp h with ⟨_, _, h⟩
      rcases bind_ok.mp h with ⟨exts, hexts, h⟩
      rcases bind_ok.mp h with ⟨next, _, h⟩
      rcases bind_ok.mp hexts with ⟨list, hlist, _⟩
      intro entry hentry
      cases List.mem_cons.mp hentry with
      | inl heq =>
          rw [heq]
          exact extListOf_fits hlist
      | inr hmem => exact ih h entry hmem

/-- An own key reads one of the own values. -/
theorem get_mem_own {value : Value} (hobject : isObject value = true) {key : String}
    (hkey : key ∈ value.keys) : (key, value.get key) ∈ value.own := by
  cases hlookup : value.own.lookup key with
  | none =>
      rw [List.lookup_eq_none_iff] at hlookup
      rcases List.mem_map.mp hkey with ⟨entry, hentry, heq⟩
      have hne := hlookup entry hentry
      rw [heq, bne_self_eq_false] at hne
      cases hne
  | some child =>
      rw [get_of_own hobject hlookup]
      exact mem_of_lookup hlookup

theorem domainPrepare_fits {field : String} {raw : Value} {scope visible : Option (List Ext)}
    {assigned : Assigned} (h : domainPrepare field raw scope visible = Except.ok assigned) :
    (Shape.either (Shape.leaf isPreparer) (Shape.dictionary extShape)).fits raw = true := by
  apply Shape.fits_either.mpr
  unfold domainPrepare at h
  split at h
  next name =>
    rcases bind_ok.mp h with ⟨_, hname, _⟩
    exact Or.inl (ensure_ok.mp hname)
  next =>
    rcases bind_ok.mp h with ⟨_, hobject, h⟩
    have hrecord := ensure_ok.mp hobject
    rw [Bool.and_eq_true] at hrecord
    refine Or.inr (Shape.fits_dictionary.mpr ⟨(isRecord_eq raw).trans hrecord.1, ?_⟩)
    intro key hkey
    exact assignNames_fits h _ (get_mem_own hrecord.1 hkey)

theorem declarations_each_ok {field : String} {list : List Declaration}
    {all : List (Ext × Domain × String)} (h : declarations field list = Except.ok all)
    {declaration : Declaration} (hmem : declaration ∈ list) :
    exists assigned, declared field declaration = Except.ok assigned := by
  induction list generalizing all with
  | nil => cases hmem
  | cons first rest ih =>
      rcases bind_ok.mp h with ⟨assigned, hassigned, h⟩
      rcases bind_ok.mp h with ⟨others, hothers, _⟩
      cases List.mem_cons.mp hmem with
      | inl heq =>
          rw [heq]
          exact ⟨assigned, hassigned⟩
      | inr hin => exact ih hothers hin

theorem declared_fits {field : String} {declaration : Declaration} {assigned : Assigned}
    (h : declared field declaration = Except.ok assigned)
    (hobject : isObject declaration.raw = true) :
    prepareShape.fits (declaration.raw.get "prepare") = true := by
  apply optional_of_given
  intro value hvalue
  unfold declared at h
  rw [hobject, if_pos rfl, hvalue] at h
  exact domainPrepare_fits h

theorem resolvePrepare_fits {name : PlaceName} {raw : Value} {fs : Option FsDomain}
    {require : Option RequireConfig} {imports : Option ImportDomain}
    {prepare : Option Assigned}
    (h : resolvePrepare name raw fs require imports = Except.ok prepare) :
    forall domain : Domain, isObject (raw.get domain.text) = true ->
      prepareShape.fits ((raw.get domain.text).get "prepare") = true := by
  rcases bind_ok.mp h with ⟨own, _, h⟩
  rcases bind_ok.mp h with ⟨all, hall, _⟩
  intro domain hobject
  have heach : forall declaration, declaration ∈ declarationList raw own fs require imports ->
      declaration.raw = raw.get domain.text ->
        prepareShape.fits ((raw.get domain.text).get "prepare") = true := by
    intro declaration hmem hraw
    rcases declarations_each_ok hall hmem with ⟨assigned, hassigned⟩
    rw [← hraw] at hobject ⊢
    exact declared_fits hassigned hobject
  cases domain with
  | fs => exact heach _ List.mem_cons_self rfl
  | require => exact heach _ (List.mem_cons_of_mem _ List.mem_cons_self) rfl
  | imports =>
      exact heach _ (List.mem_cons_of_mem _ (List.mem_cons_of_mem _ List.mem_cons_self)) rfl

theorem resolveFs_fits {field : String} {raw : Value} {fs : Option FsDomain}
    (h : resolveFs field raw = Except.ok fs)
    (hprepare : isObject raw = true -> prepareShape.fits (raw.get "prepare") = true) :
    fsShape.fits raw = true := by
  refine toggled_fits h ?_
  intro a hobject h
  rcases bind_ok.mp h with ⟨_, hknown, h⟩
  rcases bind_ok.mp h with ⟨script, hscript, h⟩
  rcases bind_ok.mp h with ⟨own, hown, h⟩
  rcases bind_ok.mp h with ⟨writable, hwritable, h⟩
  rcases bind_ok.mp h with ⟨zeroCopy, hzeroCopy, h⟩
  rcases bind_ok.mp h with ⟨compress, hcompress, h⟩
  rcases bind_ok.mp h with ⟨fallback, hfallback, _⟩
  refine record_of_known hobject hknown rfl (List.forall_mem_cons.mpr ⟨extOr_fits hown, ?_⟩)
  refine List.forall_mem_cons.mpr ⟨booleanOf_fits hwritable, ?_⟩
  refine List.forall_mem_cons.mpr ⟨booleanOf_fits hzeroCopy, ?_⟩
  refine List.forall_mem_cons.mpr ⟨resolveCompress_fits hcompress, ?_⟩
  refine List.forall_mem_cons.mpr ⟨resolveScript_fits hscript, ?_⟩
  refine List.forall_mem_cons.mpr ⟨hprepare hobject, ?_⟩
  exact List.forall_mem_singleton.mpr (resolveFallback_fits hfallback)

theorem resolveRequire_fits {field : String} {raw : Value} {require : Option RequireConfig}
    (h : resolveRequire field raw = Except.ok require)
    (hprepare : isObject raw = true -> prepareShape.fits (raw.get "prepare") = true) :
    requireShape.fits raw = true := by
  refine toggled_fits h ?_
  intro a hobject h
  rcases bind_ok.mp h with ⟨_, hknown, h⟩
  rcases bind_ok.mp h with ⟨ext, hext, h⟩
  rcases bind_ok.mp h with ⟨compile, hcompile, _⟩
  refine record_of_known hobject hknown rfl (List.forall_mem_cons.mpr ⟨extOr_fits hext, ?_⟩)
  exact List.forall_mem_cons.mpr ⟨booleanOf_fits hcompile,
    List.forall_mem_singleton.mpr (hprepare hobject)⟩

theorem resolveImport_fits {field : String} {raw : Value} {imports : Option ImportDomain}
    (h : resolveImport field raw = Except.ok imports)
    (hprepare : isObject raw = true -> prepareShape.fits (raw.get "prepare") = true) :
    importShape.fits raw = true := by
  refine toggled_fits h ?_
  intro a hobject h
  rcases bind_ok.mp h with ⟨_, hknown, h⟩
  rcases bind_ok.mp h with ⟨ext, hext, _⟩
  refine record_of_known hobject hknown rfl (List.forall_mem_cons.mpr ⟨extOr_fits hext, ?_⟩)
  exact List.forall_mem_singleton.mpr (hprepare hobject)

/-!
# Places
-/

theorem providerOf_fits {field : String} {raw : Value} {provider : Provider}
    (h : providerOf field raw = Except.ok provider) :
    (Shape.optional (oneOf providerNames)).fits raw = true := by
  apply Shape.fits_optional.mpr
  unfold providerOf at h
  split at h
  next hundefined => exact Or.inl hundefined
  next =>
    split at h
    next provider hnamed =>
      right
      show (named providerNames raw).isSome = true
      rw [hnamed]
      rfl
    next => exact absurd h fail_ne_ok

theorem resolveOrigin_fits {field : String} {raw : Value} {provider : Provider}
    {origin : Option Origin} (h : resolveOrigin field raw provider = Except.ok origin) :
    (Shape.optional (oneOf originNames)).fits raw = true := by
  apply Shape.fits_optional.mpr
  unfold resolveOrigin at h
  dsimp only at h
  split at h
  next =>
    rcases bind_ok.mp h with ⟨_, hundefined, _⟩
    exact Or.inl (ensure_ok.mp hundefined)
  next =>
    split at h
    next hundefined => exact Or.inl hundefined
    next =>
      split at h
      next origin hnamed =>
        right
        show (named originNames raw).isSome = true
        rw [hnamed]
        rfl
      next => exact absurd h fail_ne_ok

theorem maxFileSizeOf_fits {field : String} {raw : Value} {global : Global} {bytes : Nat}
    (h : maxFileSizeOf sizeToBytes field raw global = Except.ok bytes) :
    (Shape.optional (sizeShape sizeToBytes)).fits (raw.get "maxFileSize") = true := by
  apply optional_of_given
  intro value hvalue
  unfold maxFileSizeOf at h
  rw [hvalue] at h
  exact sizeOf_fits h

theorem Resolves.fits {name : PlaceName} {raw : Value} {global : Global} {built : Place}
    (h : Resolves sizeToBytes name raw global built) :
    (placeShape sizeToBytes).fits raw = true := by
  have hprepare := resolvePrepare_fits h.prepare
  refine record_of_known h.isObject h.known rfl ?_
  refine List.forall_mem_cons.mpr ⟨booleanOf_fits h.enabled, ?_⟩
  refine List.forall_mem_cons.mpr ⟨providerOf_fits h.provider, ?_⟩
  refine List.forall_mem_cons.mpr ⟨resolveOrigin_fits h.origin, ?_⟩
  refine List.forall_mem_cons.mpr ⟨maxFileSizeOf_fits h.maxFileSize, ?_⟩
  refine List.forall_mem_cons.mpr ⟨resolveFs_fits h.fs (hprepare Domain.fs), ?_⟩
  refine List.forall_mem_cons.mpr ⟨resolveRequire_fits h.require (hprepare Domain.require), ?_⟩
  exact List.forall_mem_singleton.mpr (resolveImport_fits h.imports (hprepare Domain.imports))

/-- Every place of an accepted config fits. -/
theorem places_fits {raw : Value} {config : VfsConfig}
    (h : VfsConfig.new sizeToBytes raw = Except.ok config) :
    (placesShape sizeToBytes).fits (raw.get "places") = true := by
  rcases new_ok h with ⟨_, _, _, hplaces, hresolved, _, _⟩
  apply Shape.fits_optional.mpr
  rw [Bool.or_eq_true] at hplaces
  cases hplaces with
  | inl hundefined => exact Or.inl hundefined
  | inr hobject =>
      refine Or.inr (Shape.fits_dictionary.mpr ⟨(isRecord_eq _).trans hobject, ?_⟩)
      intro name hname
      have hentries : placeEntries raw = (raw.get "places").own := by
        unfold placeEntries orEmpty
        cases hvalue : raw.get "places" with
        | object entries => rfl
        | derived proto entries => rfl
        | _ =>
            rw [hvalue] at hobject
            cases hobject
      have hmem := get_mem_own hobject hname
      rw [← hentries] at hmem
      rcases resolvePlaces_all hresolved hmem with ⟨place, _, hplace⟩
      rcases resolvePlace_ok hplace with ⟨built, hbuilt, _⟩
      exact hbuilt.fits

end Config
end SharedMemoryFs
