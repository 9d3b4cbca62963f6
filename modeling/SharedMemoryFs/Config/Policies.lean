import SharedMemoryFs.Config.Places
import SharedMemoryFs.Places.FileExt

/-!
# Extension policies

The scanner, the router, the pipeline and the hooks each ask a resolved place about
the extension of a key.  Their answers agree with one another and with what the
config says about each extension, in whatever order it says it.
-/

namespace SharedMemoryFs
namespace Config

open Foundation

namespace Place

variable (fileExt : Key -> Ext) (place : Place) (key : Key)

/-- The extension list of a domain that is on. -/
def settings : Domain -> Option (Option (List Ext))
  | Domain.fs => place.fs.map FsDomain.ext
  | Domain.require => place.require.map (fun domain => some domain.ext)
  | Domain.imports => place.imports.map (fun domain => some domain.ext)

/-- The extension policy of a domain admits an extension. -/
def admits (domain : Domain) (ext : Ext) : Bool :=
  (place.settings domain).any (fun list => list.all (fun list => list.contains ext))

/-- A source key is visible to the extension policy of a domain. -/
def visible (domain : Domain) : Bool := place.admits domain (fileExt key)

/-- The scanner loads files of an extension. -/
def loads (ext : Ext) : Bool := place.scanExt.all (fun list => list.contains ext)

/-- The place caches files of this key's extension. -/
def cached : Bool := place.loads (fileExt key)

/-- The {lit}`fs.script` pipeline applies to a source key. -/
def scripted : Bool := place.script.any (fun script => script.ext.contains (fileExt key))

/-- The preparer that owns the content of a source key. -/
def prepared : Option String := (place.prepare.getD []).lookup (fileExt key)

/-- The part of a place that publication reads. -/
def published : PlaceConfig :=
  { name := place.name
    maxFileSize := place.maxFileSize
    require := place.require
    fs := place.fs.map (fun fs => { ext := fs.ext, script := fs.script, compress := fs.compress })
    prepare := place.prepare.getD [] }

/-- Publication, which knows nothing of imports, is answered the same. -/
theorem published_visible :
    place.published.visibleFs fileExt key = place.visible fileExt key Domain.fs ∧
      place.published.visibleRequire fileExt key = place.visible fileExt key Domain.require ∧
      place.published.scripted fileExt key = place.scripted fileExt key ∧
      place.published.prepared fileExt key = place.prepared fileExt key := by
  unfold PlaceConfig.visibleFs PlaceConfig.visibleRequire PlaceConfig.scripted
    PlaceConfig.prepared visible admits settings scripted prepared published Place.script
  refine ⟨?_, ?_, ?_, rfl⟩
  · cases place.fs <;> rfl
  · cases place.require <;> rfl
  · cases place.fs <;> rfl

end Place

/-!
# What a config declares
-/

/-- What the short form of a domain covers: the extensions its user listed, or the
defaults of a domain that has them.  Those of {lit}`fs.script` are not among them. -/
def ownScope : Domain -> Value -> List Ext
  | Domain.fs, raw => (listedExt raw).getD []
  | Domain.require, raw => (listedExt raw).getD requireDefault
  | Domain.imports, raw => (listedExt raw).getD importDefault

def writtenBy (domain : Domain) (raw : Value) : List (Ext × Domain × String) :=
  if isObject raw then
    ((given raw "prepare").elim [] (assignments (ownScope domain raw))).map
      (fun entry => (entry.1, domain, entry.2))
  else []

/-- Every declaration of a preparer in a place, repetitions included. -/
def written (raw : Value) : List (Ext × Domain × String) :=
  [Domain.fs, Domain.require, Domain.imports].flatMap
    (fun domain => writtenBy domain (raw.get domain.text))

/-- The policies of a place agree. -/
structure Consistent (fileExt : Key -> Ext) (raw : Value) (place : Place) : Prop where
  cached : forall key,
    (exists domain, place.visible fileExt key domain = true) <->
      place.cached fileExt key = true
  scripted : forall key, place.scripted fileExt key = true ->
    place.visible fileExt key Domain.fs = true
  declared : forall key name, place.prepared fileExt key = some name <->
    exists domain, (fileExt key, domain, name) ∈ written raw
  once : ((written raw).map Prod.fst).Nodup
  covered : forall entry, entry ∈ written raw ->
    place.loads entry.1 = true ∧ place.admits entry.2.1 entry.1 = true
  finite : forall name, isObject (raw.get "fs") = true ->
    (raw.get "fs").get "prepare" = Value.string name ->
      (listedExt (raw.get "fs")).isSome = true

/-!
# Visible and cached
-/

variable {fileExt : Key -> Ext} {sizeToBytes : String -> Number} {name : PlaceName}
  {raw : Value} {global : Global} {built : Place}

/-- Some domain admits an extension exactly when the scanner loads it. -/
theorem loads_of_admits (hscan : built.scanExt = scanExtOf built.fs built.require built.imports)
    (ext : Ext) :
    (exists domain, built.admits domain ext = true) <-> built.loads ext = true := by
  unfold Place.loads
  cases hlist : built.scanExt with
  | none =>
      rw [hlist] at hscan
      refine ⟨fun _ => rfl, fun _ => ⟨Domain.fs, ?_⟩⟩
      unfold scanExtOf at hscan
      split at hscan
      next hany =>
        unfold Place.admits Place.settings
        cases hfs : built.fs with
        | none =>
            rw [hfs] at hany
            cases hany
        | some fs =>
            rw [hfs, Option.any_some, Option.isNone_iff_eq_none] at hany
            rw [Option.map_some, hany]
            rfl
      next => cases hscan
  | some list =>
      rw [hlist] at hscan
      have hfinite : forall fs, built.fs = some fs -> fs.ext ≠ none := by
        intro fs hfs hnone
        unfold scanExtOf at hscan
        rw [hfs, Option.any_some, hnone, Option.isNone_none, if_pos rfl] at hscan
        cases hscan
      rw [Option.all_some, List.contains_iff_mem, mem_scanExtOf hscan.symm]
      unfold Place.admits Place.settings
      constructor
      · intro h
        rcases h with ⟨domain, hadmits⟩
        cases domain with
        | fs =>
            cases hfs : built.fs with
            | none =>
                rw [hfs] at hadmits
                cases hadmits
            | some fs =>
                cases hext : fs.ext with
                | none => exact absurd hext (hfinite fs hfs)
                | some exts =>
                    rw [hfs, Option.map_some, Option.any_some, hext, Option.all_some,
                      List.contains_iff_mem] at hadmits
                    exact Or.inl ⟨fs, exts, rfl, hext, hadmits⟩
        | require =>
            cases hrequire : built.require with
            | none =>
                rw [hrequire] at hadmits
                cases hadmits
            | some domain =>
                rw [hrequire, Option.map_some, Option.any_some, Option.all_some,
                  List.contains_iff_mem] at hadmits
                exact Or.inr (Or.inl ⟨domain, rfl, hadmits⟩)
        | imports =>
            cases himports : built.imports with
            | none =>
                rw [himports] at hadmits
                cases hadmits
            | some domain =>
                rw [himports, Option.map_some, Option.any_some, Option.all_some,
                  List.contains_iff_mem] at hadmits
                exact Or.inr (Or.inr ⟨domain, rfl, hadmits⟩)
      · intro h
        rcases h with ⟨fs, exts, hfs, hlist, hmem⟩ | ⟨domain, hrequire, hmem⟩ |
          ⟨domain, himports, hmem⟩
        · refine ⟨Domain.fs, ?_⟩
          show ((built.fs.map FsDomain.ext).any _) = true
          rw [hfs, Option.map_some, Option.any_some, hlist, Option.all_some,
            List.contains_iff_mem]
          exact hmem
        · refine ⟨Domain.require, ?_⟩
          show ((built.require.map _).any _) = true
          rw [hrequire, Option.map_some, Option.any_some, Option.all_some,
            List.contains_iff_mem]
          exact hmem
        · refine ⟨Domain.imports, ?_⟩
          show ((built.imports.map _).any _) = true
          rw [himports, Option.map_some, Option.any_some, Option.all_some,
            List.contains_iff_mem]
          exact hmem

/-- The extensions of the scripts are among those of fs. -/
theorem visible_of_scripted {fs : FsDomain} {own : Option (List Ext)}
    (hfs : built.fs = some fs) (hext : fs.ext = fsExt own fs.script) {key : Key}
    (h : built.scripted fileExt key = true) :
    built.visible fileExt key Domain.fs = true := by
  unfold Place.scripted Place.script at h
  rw [hfs, Option.bind_some] at h
  show ((built.fs.map FsDomain.ext).any _) = true
  rw [hfs, Option.map_some, Option.any_some, hext]
  cases hscript : fs.script with
  | none =>
      rw [hscript] at h
      cases h
  | some script =>
      rw [hscript, Option.any_some, List.contains_iff_mem] at h
      unfold fsExt
      rw [Option.all_some, List.contains_iff_mem, mem_union]
      exact ⟨script.ext, by simp, h⟩

/-!
# Declarations
-/

theorem nodup_listedExt {raw : Value} {list : List Ext} (h : listedExt raw = some list) :
    list.Nodup := by
  unfold listedExt at h
  rcases Option.map_eq_some_iff.mp h with ⟨ext, _, heq⟩
  rw [← heq]
  exact nodup_foldl_addExt List.nodup_nil

theorem nodup_getD {alpha : Type} {list : Option (List alpha)} {default : List alpha}
    (hlist : forall l, list = some l -> l.Nodup) (hdefault : default.Nodup) :
    (list.getD default).Nodup := by
  cases list with
  | none => exact hdefault
  | some l => exact hlist l rfl

theorem options_of_isObject {raw : Value} (h : isObject raw = true) : options raw = raw := by
  unfold options
  split
  · cases h
  · rfl

/-- A resolver that turns a domain on says what its extensions are. -/
theorem scoped_of {own : Option (List Ext)} (h : Resolves sizeToBytes name raw global built)
    (hown : ownExt (raw.get "fs") = Except.ok own) (declaration : Declaration)
    (hmem : declaration ∈ declarationList raw own built.fs built.require built.imports) :
    declaration.Scoped := by
  unfold declarationList at hmem
  intro list hscope
  rcases List.mem_cons.mp hmem with heq | hmem
  · rw [heq] at hscope ⊢
    have hlisted : own = if isObject (raw.get "fs") then listedExt (raw.get "fs") else none :=
      ownExt_ok hown
    cases hobject : isObject (raw.get "fs") with
    | false =>
        rw [hobject] at hlisted
        rw [hlisted] at hscope
        cases hscope
    | true =>
        rw [hobject, if_pos rfl] at hlisted
        change own = some list at hscope
        have hsome := hlisted.symm.trans hscope
        refine ⟨nodup_listedExt hsome, ?_⟩
        intro ext hext seen hseen
        change built.fs.bind FsDomain.ext = some seen at hseen
        rcases Option.bind_eq_some_iff.mp hseen with ⟨fs, hfs, hfsExt⟩
        have hresolved := h.fs
        rw [hfs] at hresolved
        have hfsExt' := (resolveFs_ok hresolved).1
        rw [options_of_isObject hobject, hsome, hfsExt] at hfsExt'
        cases hscript : fs.script with
        | none =>
            rw [hscript] at hfsExt'
            rw [Option.some.inj hfsExt']
            exact hext
        | some script =>
            rw [hscript] at hfsExt'
            rw [Option.some.inj hfsExt', mem_union]
            exact ⟨list, by simp, hext⟩
  · rcases List.mem_cons.mp hmem with heq | hmem
    · rw [heq] at hscope ⊢
      change built.require.map RequireConfig.ext = some list at hscope
      rcases Option.map_eq_some_iff.mp hscope with ⟨domain, hdomain, hext⟩
      have hresolved := h.require
      rw [hdomain] at hresolved
      rw [resolveRequire_ok hresolved] at hext
      constructor
      · rw [← hext]
        exact nodup_getD (fun l hl => nodup_listedExt hl) (by decide)
      · intro ext hin seen hseen
        exact Option.some.inj (hscope.symm.trans hseen) ▸ hin
    · rw [List.mem_singleton.mp hmem] at hscope ⊢
      change built.imports.map ImportDomain.ext = some list at hscope
      rcases Option.map_eq_some_iff.mp hscope with ⟨domain, hdomain, hext⟩
      have hresolved := h.imports
      rw [hdomain] at hresolved
      rw [resolveImport_ok hresolved] at hext
      constructor
      · rw [← hext]
        exact nodup_getD (fun l hl => nodup_listedExt hl) (by decide)
      · intro ext hin seen hseen
        exact Option.some.inj (hscope.symm.trans hseen) ▸ hin

/-- A domain written as an object is on. -/
theorem toggled_some {alpha : Type} {field : String} {raw : Value}
    {resolve : Value -> Except Thrown alpha} {domain : Option alpha}
    (h : toggled field raw resolve = Except.ok domain) (hobject : isObject raw = true) :
    exists a, domain = some a := by
  rcases toggled_ok h with ⟨_, heq | heq⟩ | ⟨a, ha, _⟩
  · rw [heq] at hobject
    cases hobject
  · rw [heq] at hobject
    cases hobject
  · exact ⟨a, ha⟩

/-- The declarations that are resolved are the written ones. -/
theorem written_eq {own : Option (List Ext)} (h : Resolves sizeToBytes name raw global built)
    (hown : ownExt (raw.get "fs") = Except.ok own) :
    (declarationList raw own built.fs built.require built.imports).flatMap writtenIn =
      written raw := by
  have hfs : writtenIn ⟨Domain.fs, raw.get "fs", own, built.fs.bind FsDomain.ext⟩ =
      writtenBy Domain.fs (raw.get "fs") := by
    unfold writtenIn writtenBy
    split
    next hobject =>
      have hlisted := ownExt_ok hown
      rw [if_pos hobject] at hlisted
      rw [hlisted]
      rfl
    next => rfl
  have hrequire : writtenIn ⟨Domain.require, raw.get "require",
      built.require.map RequireConfig.ext, built.require.map RequireConfig.ext⟩ =
      writtenBy Domain.require (raw.get "require") := by
    unfold writtenIn writtenBy
    split
    next hobject =>
      rcases toggled_some h.require hobject with ⟨domain, hdomain⟩
      have hresolved := h.require
      rw [hdomain] at hresolved
      rw [hdomain, Option.map_some, Option.getD_some, resolveRequire_ok hresolved,
        options_of_isObject hobject]
      rfl
    next => rfl
  have himports : writtenIn ⟨Domain.imports, raw.get "import",
      built.imports.map ImportDomain.ext, built.imports.map ImportDomain.ext⟩ =
      writtenBy Domain.imports (raw.get "import") := by
    unfold writtenIn writtenBy
    split
    next hobject =>
      rcases toggled_some h.imports hobject with ⟨domain, hdomain⟩
      have hresolved := h.imports
      rw [hdomain] at hresolved
      rw [hdomain, Option.map_some, Option.getD_some, resolveImport_ok hresolved,
        options_of_isObject hobject]
      rfl
    next => rfl
  unfold declarationList written
  rw [List.flatMap_cons, List.flatMap_cons, List.flatMap_cons, List.flatMap_nil,
    List.flatMap_cons, List.flatMap_cons, List.flatMap_cons, List.flatMap_nil, hfs, hrequire,
    himports]
  rfl

theorem mem_written {entry : Ext × Domain × String} (h : entry ∈ written raw) :
    entry ∈ writtenBy entry.2.1 (raw.get entry.2.1.text) ∧
      isObject (raw.get entry.2.1.text) = true := by
  rcases List.mem_flatMap.mp h with ⟨domain, _, hentry⟩
  have hdomain : entry.2.1 = domain ∧ isObject (raw.get domain.text) = true := by
    unfold writtenBy at hentry
    split at hentry
    next hobject =>
      rcases List.mem_map.mp hentry with ⟨pair, _, heq⟩
      exact ⟨heq ▸ rfl, hobject⟩
    next => cases hentry
  rw [hdomain.1]
  exact ⟨hentry, hdomain.2⟩

/-- The domain that declares an extension is on and admits it. -/
theorem admits_of_written (h : Resolves sizeToBytes name raw global built)
    {own : Option (List Ext)}
    (hall : forall declaration,
      declaration ∈ declarationList raw own built.fs built.require built.imports ->
        forall entry, entry ∈ writtenIn declaration ->
          forall seen, declaration.visible = some seen -> entry.1 ∈ seen)
    (hown : ownExt (raw.get "fs") = Except.ok own)
    {entry : Ext × Domain × String} (hentry : entry ∈ written raw) :
    built.admits entry.2.1 entry.1 = true := by
  have hobject := (mem_written hentry).2
  rw [← written_eq h hown] at hentry
  rcases List.mem_flatMap.mp hentry with ⟨declaration, hdeclaration, hin⟩
  have hdomain : declaration.domain = entry.2.1 := by
    unfold writtenIn at hin
    split at hin
    · rcases List.mem_map.mp hin with ⟨pair, _, heq⟩
      exact heq ▸ rfl
    · cases hin
  have hseen := hall declaration hdeclaration entry hin
  unfold Place.admits
  unfold declarationList at hdeclaration
  rcases List.mem_cons.mp hdeclaration with heq | hdeclaration
  · rw [heq] at hdomain hseen
    rw [← hdomain] at hobject ⊢
    rcases toggled_some h.fs hobject with ⟨fs, hfs⟩
    unfold Place.settings
    rw [hfs, Option.map_some, Option.any_some]
    cases hext : fs.ext with
    | none => rfl
    | some exts =>
        rw [Option.all_some, List.contains_iff_mem]
        apply hseen
        rw [hfs]
        exact hext
  · rcases List.mem_cons.mp hdeclaration with heq | hdeclaration
    · rw [heq] at hdomain hseen
      rw [← hdomain] at hobject ⊢
      rcases toggled_some h.require hobject with ⟨domain, hrequire⟩
      show ((built.require.map _).any _) = true
      rw [hrequire, Option.map_some, Option.any_some, Option.all_some, List.contains_iff_mem]
      apply hseen
      rw [hrequire]
      rfl
    · rw [List.mem_singleton.mp hdeclaration] at hdomain hseen
      rw [← hdomain] at hobject ⊢
      rcases toggled_some h.imports hobject with ⟨domain, himports⟩
      show ((built.imports.map _).any _) = true
      rw [himports, Option.map_some, Option.any_some, Option.all_some, List.contains_iff_mem]
      apply hseen
      rw [himports]
      rfl

theorem consistent_of_resolves (h : Resolves sizeToBytes name raw global built) :
    Consistent fileExt raw built := by
  rcases resolvePrepare_ok h.prepare (fun own hown => scoped_of h hown) with
    ⟨own, hown, hall, honce, hlookup⟩
  rw [written_eq h hown] at honce hlookup
  refine ⟨fun key => loads_of_admits h.scanExt _, ?_, fun key name => hlookup _ _, honce, ?_, ?_⟩
  · intro key hscripted
    cases hfs : built.fs with
    | none =>
        unfold Place.scripted Place.script at hscripted
        rw [hfs] at hscripted
        cases hscripted
    | some fs =>
        have hresolved := h.fs
        rw [hfs] at hresolved
        exact visible_of_scripted hfs (resolveFs_ok hresolved).1 hscripted
  · intro entry hentry
    have hadmits := admits_of_written h hall hown hentry
    exact ⟨(loads_of_admits h.scanExt _).mp ⟨_, hadmits⟩, hadmits⟩
  · intro short hobject hshort
    rcases bind_ok.mp h.prepare with ⟨own', hown', hrest⟩
    rcases bind_ok.mp hrest with ⟨all, hdeclared, _⟩
    rcases declarations_each hdeclared List.mem_cons_self with ⟨assigned, hassigned⟩
    have hscope := scope_of_short hassigned hobject hshort
    have hlisted := ownExt_ok hown'
    rw [if_pos hobject] at hlisted
    rw [← hlisted]
    exact hscope

/-- The fallback has no part in the policies. -/
theorem settings_normalized {place : Place}
    (h : normalizeFallback built global = Except.ok place) :
    place.settings = built.settings := by
  rcases normalizeFallback_ok h with ⟨fallback, heq⟩
  funext domain
  rw [heq]
  unfold Place.settings
  cases domain with
  | fs => cases built.fs <;> rfl
  | require => rfl
  | imports => rfl

theorem consistent_normalized {place : Place}
    (h : normalizeFallback built global = Except.ok place)
    (hbuilt : Consistent fileExt raw built) : Consistent fileExt raw place := by
  have hadmits : place.admits = built.admits := by
    unfold Place.admits
    rw [settings_normalized h]
  rcases normalizeFallback_ok h with ⟨fallback, heq⟩
  have hscripted : place.scripted fileExt = built.scripted fileExt := by
    funext key
    rw [heq]
    unfold Place.scripted Place.script
    cases built.fs <;> rfl
  have hloads : place.loads = built.loads := by
    rw [heq]
    rfl
  have hprepared : place.prepared fileExt = built.prepared fileExt := by
    rw [heq]
    rfl
  constructor
  · unfold Place.visible Place.cached
    rw [hadmits, hloads]
    exact hbuilt.cached
  · unfold Place.visible
    rw [hadmits, hscripted]
    exact hbuilt.scripted
  · rw [hprepared]
    exact hbuilt.declared
  · exact hbuilt.once
  · rw [hadmits, hloads]
    exact hbuilt.covered
  · exact hbuilt.finite

theorem consistent_of_resolvePlace {place : Place}
    (h : resolvePlace sizeToBytes name raw global = Except.ok place) :
    Consistent fileExt raw place := by
  rcases resolvePlace_ok h with ⟨built, hbuilt, hnormalized⟩
  exact consistent_normalized hnormalized (consistent_of_resolves hbuilt)

/-!
# The extensions of a domain
-/

/-- The extensions {lit}`fs.script` adds to fs. -/
def scriptScope (raw : Value) : Option (List Ext) :=
  match raw.get "script" with
  | Value.undefined => none
  | Value.boolean false => none
  | script => some ((listedExt (options script)).getD scriptDefault)

/-- The finite list of a domain written as an object, nothing for an unrestricted fs. -/
def domainScope : Domain -> Value -> Option (List Ext)
  | Domain.fs, raw =>
      (scriptScope raw).elim (listedExt raw)
        (fun script => some (union [(listedExt raw).getD [], script]))
  | Domain.require, raw => some ((listedExt raw).getD requireDefault)
  | Domain.imports, raw => some ((listedExt raw).getD importDefault)

/-- An extension is declared twice, or outside the finite list of its domain. -/
def Clashes (raw : Value) : Prop :=
  ¬ ((written raw).map Prod.fst).Nodup ∨
    exists entry list, entry ∈ written raw ∧
      domainScope entry.2.1 (raw.get entry.2.1.text) = some list ∧ entry.1 ∉ list

theorem resolveScript_ok {field : String} {raw : Value} {script : Option ScriptConfig}
    (h : resolveScript field (raw.get "script") = Except.ok script) :
    script.map ScriptConfig.ext = scriptScope raw := by
  unfold scriptScope
  rcases toggled_ok h with ⟨hnone, heq | heq⟩ | ⟨a, hsome, hresolve, hon⟩
  · rw [heq, hnone]
    rfl
  · rw [heq, hnone]
    rfl
  · rcases bind_ok.mp hresolve with ⟨_, _, hrest⟩
    rcases bind_ok.mp hrest with ⟨ext, hext, hrest⟩
    rcases bind_ok.mp hrest with ⟨compile, _, heq⟩
    cases heq
    have hlisted : ext = (listedExt (options (raw.get "script"))).getD scriptDefault := by
      rw [extOr_ok hext]
      cases listedExt (options (raw.get "script")) with
      | none => rfl
      | some list => rfl
    rw [hsome, Option.map_some, hlisted]
    split
    next hundefined =>
      rw [hundefined] at hon
      rcases hon with hon | hon <;> cases hon
    next hfalse =>
      rw [hfalse] at hon
      rcases hon with hon | hon <;> cases hon
    next => rfl

/-- A domain written as an object is on with its extensions. -/
theorem settings_of_isObject (h : Resolves sizeToBytes name raw global built) (domain : Domain)
    (hobject : isObject (raw.get domain.text) = true) :
    built.settings domain = some (domainScope domain (raw.get domain.text)) := by
  unfold Place.settings domainScope
  cases domain with
  | fs =>
      change isObject (raw.get "fs") = true at hobject
      rcases toggled_some h.fs hobject with ⟨fs, hfs⟩
      have hresolved := h.fs
      rw [hfs] at hresolved
      rcases resolveFs_ok hresolved with ⟨hext, hscript, _⟩
      rw [options_of_isObject hobject] at hext hscript
      dsimp only
      rw [hfs, Option.map_some, hext]
      show _ = some ((scriptScope (raw.get "fs")).elim _ _)
      rw [← resolveScript_ok hscript]
      cases fs.script with
      | none => rfl
      | some script => rfl
  | require =>
      change isObject (raw.get "require") = true at hobject
      rcases toggled_some h.require hobject with ⟨require, hrequire⟩
      have hresolved := h.require
      rw [hrequire] at hresolved
      have hext := resolveRequire_ok hresolved
      rw [options_of_isObject hobject] at hext
      dsimp only
      rw [hrequire, Option.map_some, hext]
      rfl
  | imports =>
      change isObject (raw.get "import") = true at hobject
      rcases toggled_some h.imports hobject with ⟨imports, himports⟩
      have hresolved := h.imports
      rw [himports] at hresolved
      have hext := resolveImport_ok hresolved
      rw [options_of_isObject hobject] at hext
      dsimp only
      rw [himports, Option.map_some, hext]
      rfl

theorem not_clashes_of_resolvePlace {place : Place}
    (h : resolvePlace sizeToBytes name raw global = Except.ok place) : ¬ Clashes raw := by
  have hconsistent : Consistent (fun _ => "") raw place := consistent_of_resolvePlace h
  rcases resolvePlace_ok h with ⟨built, hbuilt, hnormalized⟩
  intro hclash
  cases hclash with
  | inl htwice => exact htwice hconsistent.once
  | inr houtside =>
      rcases houtside with ⟨entry, list, hentry, hlist, hmem⟩
      have hadmits := (hconsistent.covered entry hentry).2
      unfold Place.admits at hadmits
      rw [settings_normalized hnormalized,
        settings_of_isObject hbuilt entry.2.1 (mem_written hentry).2, Option.any_some, hlist,
        Option.all_some, List.contains_iff_mem] at hadmits
      exact hmem hadmits

end Config
end SharedMemoryFs
