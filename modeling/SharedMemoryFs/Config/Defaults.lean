import SharedMemoryFs.Config.Schema
import SharedMemoryFs.Config.Sequences

/-!
# The defaults of a config

The section is merged into the defaults of the library before it is checked.  What is
read off the merged sections is what was written in them, as long as each of them is an
object.
-/

namespace SharedMemoryFs
namespace Config

open Foundation

/-!
# Values with distinct keys
-/

theorem properIn_lookup {entries : Entries} (h : Value.properIn entries = true)
    {name : String} {value : Value} (hlookup : entries.lookup name = some value) :
    value.proper = true := by
  induction entries with
  | nil => cases hlookup
  | cons entry rest ih =>
      rcases entry with ⟨key, first⟩
      change (first.proper && Value.properIn rest) = true at h
      rw [Bool.and_eq_true] at h
      rw [OrderedMap.lookup_cons_eq_ite] at hlookup
      split at hlookup
      · rw [← Option.some.inj hlookup]
        exact h.1
      · exact ih h.2 hlookup

theorem proper_inherited (name : String) : (Value.inherited name).proper = true := by
  unfold Value.inherited
  split
  · rfl
  · split
    · rfl
    · split
      · rfl
      · rfl

theorem proper_cases {value : Value} (h : value.proper = true)
    (hobject : isObject value = true) :
    value.keys.Nodup ∧ Value.properIn value.own = true := by
  cases value with
  | object entries =>
      change (decide (entries.map Prod.fst).Nodup && Value.properIn entries) = true at h
      rw [Bool.and_eq_true, decide_eq_true_eq] at h
      exact h
  | derived proto entries =>
      change (proto.proper && decide (entries.map Prod.fst).Nodup &&
        Value.properIn entries) = true at h
      rw [Bool.and_eq_true, Bool.and_eq_true, decide_eq_true_eq] at h
      exact ⟨h.1.2, h.2⟩
  | _ => cases hobject

theorem proper_item {items : List Value} (h : Value.properAll items = true) {item : Value}
    (hitem : item ∈ items) : item.proper = true := by
  induction items with
  | nil => cases hitem
  | cons first rest ih =>
      change (first.proper && Value.properAll rest) = true at h
      rw [Bool.and_eq_true] at h
      cases List.mem_cons.mp hitem with
      | inl heq =>
          rw [heq]
          exact h.1
      | inr hmem => exact ih h.2 hmem

theorem proper_array {items : List Value} (h : Value.properAll items = true) (name : String) :
    ((Value.array items).get name).proper = true := by
  show ((((Value.array items).own.lookup name)).getD
    (if name = Value.protoKey then Value.array [] else Value.inherited name)).proper = true
  cases hlookup : (Value.array items).own.lookup name with
  | some child =>
      rcases List.mem_map.mp (mem_of_lookup hlookup) with ⟨item, hitem, heq⟩
      cases heq
      exact proper_item h (List.fst_mem_of_mem_zipIdx hitem)
  | none =>
      rw [Option.getD_none]
      split
      · rfl
      · exact proper_inherited name

/-- Whatever is read off a value has distinct keys as well. -/
theorem proper_get : (value : Value) -> value.proper = true -> (name : String) ->
    (value.get name).proper = true
  | Value.undefined, _, _ => rfl
  | Value.null, _, _ => rfl
  | Value.function _, _, _ => rfl
  | Value.boolean _, _, name => proper_inherited name
  | Value.number _, _, name => proper_inherited name
  | Value.string _, _, name => proper_inherited name
  | Value.array _, h, name => proper_array h name
  | Value.object entries, h, name => by
      have hown := (proper_cases h rfl).2
      show ((entries.lookup name).getD (Value.inherited name)).proper = true
      cases hlookup : entries.lookup name with
      | some child => exact properIn_lookup hown hlookup
      | none => exact proper_inherited name
  | Value.derived proto entries, h, name => by
      have hown := (proper_cases h rfl).2
      have hproto : proto.proper = true := by
        change (proto.proper && decide (entries.map Prod.fst).Nodup &&
          Value.properIn entries) = true at h
        rw [Bool.and_eq_true, Bool.and_eq_true] at h
        exact h.1.1
      show ((entries.lookup name).getD
        (if name = Value.protoKey then (if proto.rooted then proto else Value.undefined)
          else proto.get name)).proper = true
      cases hlookup : entries.lookup name with
      | some child => exact properIn_lookup hown hlookup
      | none =>
          rw [Option.getD_none]
          split
          · split
            · exact hproto
            · rfl
          · exact proper_get proto hproto name

/-!
# Reading what is merged
-/

theorem get_object_eq {entries : Entries} {name : String} :
    (Value.object entries).get name = (entries.lookup name).getD (Value.inherited name) := rfl

theorem lookup_of_mem_keys {value : Value} {key : String} (hkey : key ∈ value.keys) :
    exists child, value.own.lookup key = some child := by
  cases hlookup : value.own.lookup key with
  | some child => exact ⟨child, rfl⟩
  | none =>
      rw [List.lookup_eq_none_iff] at hlookup
      rcases List.mem_map.mp hkey with ⟨entry, hentry, heq⟩
      have hne := hlookup entry hentry
      rw [heq, bne_self_eq_false] at hne
      cases hne

theorem lookup_of_not_mem_keys {value : Value} {key : String} (hkey : key ∉ value.keys) :
    value.own.lookup key = none := by
  rw [List.lookup_eq_none_iff]
  intro entry hentry
  rw [bne_iff_ne]
  intro heq
  exact hkey (List.mem_map.mpr ⟨entry, hentry, heq.symm⟩)

/-- Own options of the source are merged, the others are those of the target. -/
theorem get_mergeDeep {targets : Entries} {source : Value} (hobject : isObject source = true)
    (hproto : Value.protoKey ∉ source.keys) (hnodup : source.keys.Nodup) (name : String) :
    (mergeDeep (Value.object targets) source).get name =
      if name ∈ source.keys then mergedAt (Value.object targets) name (source.get name)
      else (Value.object targets).get name := by
  have hinto : mergeDeep (Value.object targets) source =
      mergeInto (Value.object targets) (Value.object targets) source.own := by
    cases source with
    | object entries => rfl
    | derived proto entries => rfl
    | _ => cases hobject
  have hkeys : forall entry, entry ∈ source.own -> entry.1 ≠ Value.protoKey := by
    intro entry hentry heq
    exact hproto (List.mem_map.mpr ⟨entry, hentry, heq⟩)
  rcases @mergeInto_object (Value.object targets) source.own targets hkeys hnodup with
    ⟨all, hall, hlookup⟩
  rw [hinto, hall, get_object_eq, hlookup]
  split
  next hmem =>
    rcases lookup_of_mem_keys hmem with ⟨child, hchild⟩
    rw [hchild, get_of_own hobject hchild]
    rfl
  next hmem =>
    rw [lookup_of_not_mem_keys hmem]
    rfl

theorem isObject_mergeInto {target result : Value} {entries : Entries}
    (h : isObject result = true) : isObject (mergeInto target result entries) = true := by
  induction entries generalizing result with
  | nil => exact h
  | cons entry rest ih =>
      rcases entry with ⟨key, value⟩
      rw [mergeInto_cons]
      exact ih (isObject_put h _ _)

theorem isObject_mergedAt {target value : Value} {name : String} :
    isObject (mergedAt target name value) = isObject value := by
  unfold mergedAt
  cases hobject : isObject value with
  | false =>
      rw [if_neg Bool.false_ne_true]
      exact hobject
  | true =>
      rw [if_pos rfl]
      cases value with
      | object entries => exact isObject_mergeInto rfl
      | derived proto entries => exact isObject_mergeInto rfl
      | _ => cases hobject

/-- A value that fits no object is merged as it is. -/
theorem fits_of_mergedAt {shape : Shape} {target value : Value} {name : String}
    (hscalar : forall v, isObject v = true -> shape.fits v = false)
    (h : shape.fits (mergedAt target name value) = true) : shape.fits value = true := by
  cases hobject : isObject value with
  | true =>
      rw [hscalar _ (isObject_mergedAt.trans hobject)] at h
      cases h
  | false =>
      unfold mergedAt at h
      rw [hobject] at h
      exact h

/-!
# Sections
-/

/-- What a section of the defaults is read from. -/
structure Section (source : Value) (names : List String) : Prop where
  isObject : isObject source = true
  known : forall key, key ∈ source.keys -> key ∈ names
  nodup : source.keys.Nodup

theorem Section.get {source : Value} {names : List String} (h : Section source names)
    (hnames : Value.protoKey ∉ names) (targets : Entries) (name : String) :
    (mergeDeep (Value.object targets) source).get name =
      if name ∈ source.keys then mergedAt (Value.object targets) name (source.get name)
      else (Value.object targets).get name :=
  get_mergeDeep h.isObject (fun hproto => hnames (h.known _ hproto)) h.nodup name

/-- The options of a section fit when they do after the merge. -/
theorem Section.fits {source : Value} {fields : List (String × Shape)} {targets : Entries}
    (h : Section source (fields.map Prod.fst)) (hnames : Value.protoKey ∉ fields.map Prod.fst)
    (hscalar : forall field, field ∈ fields ->
      forall v, Config.isObject v = true -> field.2.fits v = false)
    (hmerged : forall field, field ∈ fields ->
      field.2.fits ((mergeDeep (Value.object targets) source).get field.1) = true) :
    (Shape.record fields).fits source = true := by
  refine Shape.fits_record.mpr ⟨(isRecord_eq source).trans h.isObject, ?_⟩
  intro key hkey
  rcases Shape.exists_lookup (h.known key hkey) with ⟨shape, hlookup, hmem⟩
  refine ⟨shape, hlookup, ?_⟩
  have hfits := hmerged _ hmem
  rw [h.get hnames, if_pos hkey] at hfits
  exact fits_of_mergedAt (hscalar _ hmem) hfits

theorem section_of_fits {source : Value} {fields : List (String × Shape)}
    (h : (Shape.record fields).fits source = true) (hproper : source.proper = true) :
    Section source (fields.map Prod.fst) := by
  rcases Shape.fits_record.mp h with ⟨hrecord, hkeys⟩
  rw [isRecord_eq] at hrecord
  refine ⟨hrecord, ?_, (proper_cases hproper hrecord).1⟩
  intro key hkey
  rcases hkeys key hkey with ⟨shape, hlookup, _⟩
  exact List.mem_map.mpr ⟨_, Shape.mem_fields hlookup, rfl⟩

/-!
# The global section
-/

/-- The options that are read off the merged section. -/
structure ResolvesGlobal (sizeToBytes : String -> Number) (merged : Value) : Prop where
  threshold : exists threshold,
    thresholdOf ((merged.get "compaction").get "threshold") = Except.ok threshold
  watchTimeout : exists watchTimeout,
    watchTimeoutOf (merged.get "watchTimeout") = Except.ok watchTimeout
  memory : forall name, name ∈ ["limit", "segmentSize", "maxFileSize"] -> exists field bytes,
    sizeOf sizeToBytes field ((merged.get "memory").get name) = Except.ok bytes
  hooks : forall name, name ∈ ["fs", "module"] -> exists field enabled,
    booleanOf field ((merged.get "hooks").get name) true = Except.ok enabled
  watch : exists watch, booleanOf "defaults.watch" (merged.get "watch") false = Except.ok watch
  strict : exists strict,
    booleanOf "defaults.strict" (merged.get "strict") false = Except.ok strict

theorem read_ok {value result : Value} {name : String} (h : read value name = Except.ok result) :
    result = value.get name := by
  unfold read at h
  split at h
  · cases h
  · cases h
    rfl

variable {sizeToBytes : String -> Number}

theorem resolveMemory_ok {value : Value} {memory : Memory}
    (h : resolveMemory sizeToBytes value = Except.ok memory) :
    forall name, name ∈ ["limit", "segmentSize", "maxFileSize"] -> exists field bytes,
      sizeOf sizeToBytes field (value.get name) = Except.ok bytes := by
  rcases bind_ok.mp h with ⟨limit, hlimit, h⟩
  rcases bind_ok.mp h with ⟨limitBytes, hlimitBytes, h⟩
  rcases bind_ok.mp h with ⟨segment, hsegment, h⟩
  rcases bind_ok.mp h with ⟨segmentBytes, hsegmentBytes, h⟩
  rcases bind_ok.mp h with ⟨file, hfile, h⟩
  rcases bind_ok.mp h with ⟨fileBytes, hfileBytes, _⟩
  rw [read_ok hlimit] at hlimitBytes
  rw [read_ok hsegment] at hsegmentBytes
  rw [read_ok hfile] at hfileBytes
  refine List.forall_mem_cons.mpr ⟨⟨_, _, hlimitBytes⟩, ?_⟩
  exact List.forall_mem_cons.mpr ⟨⟨_, _, hsegmentBytes⟩,
    List.forall_mem_singleton.mpr ⟨_, _, hfileBytes⟩⟩

theorem resolveHooks_ok {value : Value} {hooks : Hooks}
    (h : resolveHooks value = Except.ok hooks) :
    forall name, name ∈ ["fs", "module"] -> exists field enabled,
      booleanOf field (value.get name) true = Except.ok enabled := by
  rcases bind_ok.mp h with ⟨fs, hfs, h⟩
  rcases bind_ok.mp h with ⟨fsEnabled, hfsEnabled, h⟩
  rcases bind_ok.mp h with ⟨module_, hmodule, h⟩
  rcases bind_ok.mp h with ⟨moduleEnabled, hmoduleEnabled, _⟩
  rw [read_ok hfs] at hfsEnabled
  rw [read_ok hmodule] at hmoduleEnabled
  exact List.forall_mem_cons.mpr ⟨⟨_, _, hfsEnabled⟩,
    List.forall_mem_singleton.mpr ⟨_, _, hmoduleEnabled⟩⟩

theorem resolveGlobal_ok {raw : Value} {global : Global}
    (h : resolveGlobal sizeToBytes raw = Except.ok global) :
    knownKeys "defaults" (mergeDeep (deepClone defaults) raw) defaults.keys = Except.ok () ∧
      ResolvesGlobal sizeToBytes (mergeDeep (deepClone defaults) raw) := by
  rcases bind_ok.mp h with ⟨_, hknown, h⟩
  rcases bind_ok.mp h with ⟨value, hvalue, h⟩
  rcases bind_ok.mp h with ⟨threshold, hthreshold, h⟩
  rcases bind_ok.mp h with ⟨watchTimeout, hwatchTimeout, h⟩
  rcases bind_ok.mp h with ⟨memory, hmemory, h⟩
  rcases bind_ok.mp h with ⟨hooks, hhooks, h⟩
  rcases bind_ok.mp h with ⟨watch, hwatch, h⟩
  rcases bind_ok.mp h with ⟨strict, hstrict, _⟩
  rw [read_ok hvalue] at hthreshold
  exact ⟨hknown, ⟨threshold, hthreshold⟩, ⟨watchTimeout, hwatchTimeout⟩,
    resolveMemory_ok hmemory, resolveHooks_ok hhooks, ⟨watch, hwatch⟩, ⟨strict, hstrict⟩⟩

theorem sizeShape_scalar (v : Value) (h : isObject v = true) :
    (sizeShape sizeToBytes).fits v = false := by
  cases v with
  | object entries => rfl
  | derived proto entries => rfl
  | _ => cases h

theorem flagShape_scalar (v : Value) (h : isObject v = true) : flagShape.fits v = false := by
  cases v with
  | object entries => rfl
  | derived proto entries => rfl
  | _ => cases h

theorem thresholdOf_fits {value : Value} {threshold : Rat}
    (h : thresholdOf value = Except.ok threshold) : (fraction value).isSome = true := by
  unfold thresholdOf at h
  split at h
  next hsome =>
    rw [hsome]
    rfl
  next => exact absurd h fail_ne_ok

theorem watchTimeoutOf_fits {value : Value} {watchTimeout : Nat}
    (h : watchTimeoutOf value = Except.ok watchTimeout) : (timeout value).isSome = true := by
  unfold watchTimeoutOf at h
  split at h
  next hsome =>
    rw [hsome]
    rfl
  next => exact absurd h fail_ne_ok

theorem deepClone_defaults : deepClone defaults = defaults := by rfl

def memoryDefaults : Entries := (defaults.get "memory").own

def compactionDefaults : Entries := (defaults.get "compaction").own

def hooksDefaults : Entries := (defaults.get "hooks").own

theorem merged_section {name : String} {value : Value} (hobject : isObject value = true)
    {targets : Entries} (htarget : defaults.get name = Value.object targets) :
    mergedAt defaults name value = mergeDeep (Value.object targets) value := by
  unfold mergedAt
  rw [hobject, if_pos rfl, htarget]
  rfl

/-- The names of the sections. -/
def sectionNames : List String :=
  ["memory", "compaction", "hooks", "watch", "watchTimeout", "strict"]

theorem keysShape_cases {value : Value} (h : keysShape.fits value = true) :
    value.isUndefined = true ∨ (isObject value = true ∧
      (forall key, key ∈ value.keys -> key ∈ sectionNames) ∧
      ("memory" ∈ value.keys -> (Shape.record [("limit", Shape.anything),
        ("segmentSize", Shape.anything), ("maxFileSize", Shape.anything)]).fits
          (value.get "memory") = true) ∧
      ("compaction" ∈ value.keys ->
        (Shape.record [("threshold", Shape.anything)]).fits (value.get "compaction") = true) ∧
      ("hooks" ∈ value.keys -> (Shape.record [("fs", Shape.anything),
        ("module", Shape.anything)]).fits (value.get "hooks") = true)) := by
  cases Shape.fits_optional.mp h with
  | inl hundefined => exact Or.inl hundefined
  | inr hrecord =>
      rcases Shape.fits_record.mp hrecord with ⟨hobject, hkeys⟩
      rw [isRecord_eq] at hobject
      refine Or.inr ⟨hobject, ?_, ?_, ?_, ?_⟩
      · intro key hkey
        rcases hkeys key hkey with ⟨shape, hlookup, _⟩
        have hmem := @List.mem_map_of_mem _ _ _ _ Prod.fst (Shape.mem_fields hlookup)
        exact hmem
      · intro hkey
        rcases hkeys _ hkey with ⟨shape, hlookup, hfits⟩
        cases hlookup
        exact hfits
      · intro hkey
        rcases hkeys _ hkey with ⟨shape, hlookup, hfits⟩
        cases hlookup
        exact hfits
      · intro hkey
        rcases hkeys _ hkey with ⟨shape, hlookup, hfits⟩
        cases hlookup
        exact hfits

theorem memory_fits {value : Value} (h : Section value ["limit", "segmentSize", "maxFileSize"])
    (hsizes : forall name, name ∈ ["limit", "segmentSize", "maxFileSize"] -> exists field bytes,
      sizeOf sizeToBytes field ((mergeDeep (Value.object memoryDefaults) value).get name) =
        Except.ok bytes) :
    (Shape.record [("limit", sizeShape sizeToBytes), ("segmentSize", sizeShape sizeToBytes),
      ("maxFileSize", sizeShape sizeToBytes)]).fits value = true := by
  have hnames : Value.protoKey ∉ ["limit", "segmentSize", "maxFileSize"] := by decide
  refine @Section.fits _ _ memoryDefaults h hnames ?_ ?_
  · exact List.forall_mem_cons.mpr ⟨sizeShape_scalar, List.forall_mem_cons.mpr
      ⟨sizeShape_scalar, List.forall_mem_singleton.mpr sizeShape_scalar⟩⟩
  · have hfits : forall name, name ∈ ["limit", "segmentSize", "maxFileSize"] ->
        (sizeShape sizeToBytes).fits
          ((mergeDeep (Value.object memoryDefaults) value).get name) = true := by
      intro name hname
      rcases hsizes name hname with ⟨_, _, hsize⟩
      exact sizeOf_fits hsize
    refine List.forall_mem_cons.mpr ⟨hfits "limit" (by decide), ?_⟩
    exact List.forall_mem_cons.mpr ⟨hfits "segmentSize" (by decide),
      List.forall_mem_singleton.mpr (hfits "maxFileSize" (by decide))⟩

theorem compaction_fits {value : Value} (h : Section value ["threshold"]) {threshold : Rat}
    (hthreshold : thresholdOf ((mergeDeep (Value.object compactionDefaults) value).get
      "threshold") = Except.ok threshold) :
    (Shape.record [("threshold", Shape.leaf (fun value => (fraction value).isSome))]).fits
      value = true := by
  refine @Section.fits _ _ compactionDefaults h (by decide) ?_ ?_
  · refine List.forall_mem_singleton.mpr ?_
    intro v hv
    cases v with
    | object entries => rfl
    | derived proto entries => rfl
    | _ => cases hv
  · exact List.forall_mem_singleton.mpr (thresholdOf_fits hthreshold)

theorem hooks_fits {value : Value} (h : Section value ["fs", "module"])
    (hhooks : forall name, name ∈ ["fs", "module"] -> exists field enabled,
      booleanOf field ((mergeDeep (Value.object hooksDefaults) value).get name) true =
        Except.ok enabled) :
    (Shape.record [("fs", flagShape), ("module", flagShape)]).fits value = true := by
  refine @Section.fits _ _ hooksDefaults h (by decide) ?_ ?_
  · exact List.forall_mem_cons.mpr ⟨flagShape_scalar,
      List.forall_mem_singleton.mpr flagShape_scalar⟩
  · have hfits : forall name, name ∈ ["fs", "module"] -> flagShape.fits
        ((mergeDeep (Value.object hooksDefaults) value).get name) = true := by
      intro name hname
      rcases hhooks name hname with ⟨_, _, hhook⟩
      exact booleanOf_fits hhook
    exact List.forall_mem_cons.mpr ⟨hfits _ (by decide),
      List.forall_mem_singleton.mpr (hfits _ (by decide))⟩

/-- Accepted defaults with known options fit their shapes. -/
theorem defaults_fits {value : Value} {global : Global} (hproper : value.proper = true)
    (hkeys : keysShape.fits value = true)
    (h : resolveGlobal sizeToBytes (orEmpty value) = Except.ok global) :
    (defaultsShape sizeToBytes).fits value = true := by
  apply Shape.fits_optional.mpr
  rcases keysShape_cases hkeys with hundefined | ⟨hobject, hknown, hmemory, hcompaction, hhooks⟩
  · exact Or.inl hundefined
  · right
    rw [orEmpty_of_isObject hobject] at h
    have hresolves := (resolveGlobal_ok h).2
    rw [deepClone_defaults] at hresolves
    have hsection : Section value sectionNames :=
      ⟨hobject, hknown, (proper_cases hproper hobject).1⟩
    have hmerged : forall name, name ∈ value.keys ->
        (mergeDeep defaults value).get name = mergedAt defaults name (value.get name) := by
      intro name hname
      have hget := hsection.get (by decide) defaults.own name
      rw [if_pos hname] at hget
      exact hget
    have hproperGet := proper_get value hproper
    refine Shape.fits_record.mpr ⟨(isRecord_eq value).trans hobject, ?_⟩
    intro key hkey
    have hmem := hknown key hkey
    simp only [sectionNames, List.mem_cons, List.not_mem_nil, or_false] at hmem
    rcases hmem with heq | heq | heq | heq | heq | heq
    · rw [heq] at hkey ⊢
      have hinner := section_of_fits (hmemory hkey) (hproperGet _)
      have hread := hresolves.memory
      rw [hmerged _ hkey, merged_section hinner.isObject (by rfl)] at hread
      exact ⟨_, rfl, memory_fits hinner hread⟩
    · rw [heq] at hkey ⊢
      have hinner := section_of_fits (hcompaction hkey) (hproperGet _)
      rcases hresolves.threshold with ⟨threshold, hread⟩
      rw [hmerged _ hkey, merged_section hinner.isObject (by rfl)] at hread
      exact ⟨_, rfl, compaction_fits hinner hread⟩
    · rw [heq] at hkey ⊢
      have hinner := section_of_fits (hhooks hkey) (hproperGet _)
      have hread := hresolves.hooks
      rw [hmerged _ hkey, merged_section hinner.isObject (by rfl)] at hread
      exact ⟨_, rfl, hooks_fits hinner hread⟩
    · rw [heq] at hkey ⊢
      rcases hresolves.watch with ⟨watch, hread⟩
      rw [hmerged _ hkey] at hread
      exact ⟨_, rfl, fits_of_mergedAt flagShape_scalar (booleanOf_fits hread)⟩
    · rw [heq] at hkey ⊢
      rcases hresolves.watchTimeout with ⟨watchTimeout, hread⟩
      rw [hmerged _ hkey] at hread
      refine ⟨_, rfl, fits_of_mergedAt ?_ (watchTimeoutOf_fits hread)⟩
      intro v hv
      cases v with
      | object entries => rfl
      | derived proto entries => rfl
      | _ => cases hv
    · rw [heq] at hkey ⊢
      rcases hresolves.strict with ⟨strict, hread⟩
      rw [hmerged _ hkey] at hread
      exact ⟨_, rfl, fits_of_mergedAt flagShape_scalar (booleanOf_fits hread)⟩

/-- Defaults of the right shape have known options. -/
theorem keys_of_defaults {value : Value} (h : (defaultsShape sizeToBytes).fits value = true) :
    keysShape.fits value = true := by
  apply Shape.fits_optional.mpr
  cases Shape.fits_optional.mp h with
  | inl hundefined => exact Or.inl hundefined
  | inr hrecord =>
      refine Or.inr (Shape.record_mono hrecord ?_)
      intro key shape hlookup
      have hmem := Shape.mem_fields hlookup
      simp only [List.mem_cons, Prod.mk.injEq, List.not_mem_nil, or_false] at hmem
      rcases hmem with ⟨hkey, hshape⟩ | ⟨hkey, hshape⟩ | ⟨hkey, hshape⟩ | ⟨hkey, hshape⟩ |
        ⟨hkey, hshape⟩ | ⟨hkey, hshape⟩
      · rw [hkey, hshape]
        refine ⟨_, rfl, fun hfits => Shape.record_names hfits ?_⟩
        exact List.forall_mem_cons.mpr ⟨rfl, List.forall_mem_cons.mpr
          ⟨rfl, List.forall_mem_singleton.mpr rfl⟩⟩
      · rw [hkey, hshape]
        refine ⟨_, rfl, fun hfits => Shape.record_names hfits ?_⟩
        exact List.forall_mem_singleton.mpr rfl
      · rw [hkey, hshape]
        refine ⟨_, rfl, fun hfits => Shape.record_names hfits ?_⟩
        exact List.forall_mem_cons.mpr ⟨rfl, List.forall_mem_singleton.mpr rfl⟩
      · rw [hkey]
        exact ⟨Shape.anything, rfl, fun _ => rfl⟩
      · rw [hkey]
        exact ⟨Shape.anything, rfl, fun _ => rfl⟩
      · rw [hkey]
        exact ⟨Shape.anything, rfl, fun _ => rfl⟩

end Config
end SharedMemoryFs
