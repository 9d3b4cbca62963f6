import SharedMemoryFs.Places.Pairing
import SharedMemoryFs.Places.Serializable

/-!
# Both stores answer alike

A map place and a shared place under one configuration that suits both: the same mutations
succeed, they leave the same entries, and those that fail do so for the same reason.
-/

namespace SharedMemoryFs

open Foundation PlaceFiles

variable {place : Place} {files files' : Files} {key source target : Key}

/-- The same entry lies under each key. -/
def Same (files files' : Files) : Prop := forall k, files'.get k = files.get k

/-- A configuration for either store, with the preparers of the main thread. -/
structure Portable (place : Place) : Prop where
  uncompressed : place.config.fs.bind FsConfig.compress = none
  bound : place.Bound
  tidy : place.Tidy
  names : NameExt place.fileExt

/-- The pool takes everything. -/
def Env.Roomy (env : Env) : Prop := forall k, env.fits k = true

/-- Answers an application cannot tell apart, but for a script that does not compile and the
message of a subtree that cannot move. -/
inductive Alike (place : Place) : Except Refusal Unit -> Except Refusal Unit -> Prop where
  | done : Alike place (Except.ok ()) (Except.ok ())
  | refused (refusal refusal' : Refusal) : refusal.code = refusal'.code ->
      Alike place (Except.error refusal) (Except.error refusal')
  | uncompiled (key : Key) :
      Alike place (Except.error (MapStore.scriptRefusal place key))
        (Except.error Refusal.scriptDoesNotCompile)

def Agree (place : Place) (outcome outcome' : Files × Except Refusal Unit) : Prop :=
  Alike place outcome.2 outcome'.2 ∧ Same outcome.1 outcome'.1

theorem Alike.same (result : Except Refusal Unit) : Alike place result result := by
  cases result with
  | error refusal => exact Alike.refused refusal refusal rfl
  | ok _ => exact Alike.done

theorem Agree.unchanged (h : Same files files') (result : Except Refusal Unit) :
    Agree place (files, result) (files', result) := ⟨Alike.same result, h⟩

/-!
# The checks
-/

namespace Same

theorem hasSource (h : Same files files') (key : Key) :
    files'.hasSource key = files.hasSource key := by
  show (files'.get (EntryKey.ofSource key)).isSome = (files.get (EntryKey.ofSource key)).isSome
  rw [h]

theorem isDirectory (h : Same files files') (hfiles : files.WellFormed)
    (hfiles' : files'.WellFormed) (hkey : Plain key) :
    files'.isDirectory key = files.isDirectory key := by
  apply Bool.eq_iff_iff.mpr
  rw [isDirectory_iff hfiles.indexed hkey, isDirectory_iff hfiles'.indexed hkey]
  simp only [h.hasSource]

theorem keysUnder (h : Same files files') (hfiles : files.WellFormed)
    (hfiles' : files'.WellFormed) (hkey : Plain key) (k : Key) :
    k ∈ files'.keysUnder key <-> k ∈ files.keysUnder key := by
  rw [mem_keysUnder hfiles.indexed hkey, mem_keysUnder hfiles'.indexed hkey, h.hasSource]

theorem keysUnder_nil (h : Same files files') (hfiles : files.WellFormed)
    (hfiles' : files'.WellFormed) (hkey : Plain key) :
    files'.keysUnder key = [] <-> files.keysUnder key = [] := by
  rw [List.eq_nil_iff_forall_not_mem, List.eq_nil_iff_forall_not_mem]
  simp only [h.keysUnder hfiles hfiles' hkey]

theorem fileAboveWithin (h : Same files files') (creating : List Key) (fuel : Nat) (key : Key) :
    Place.fileAboveWithin files' creating fuel key =
      Place.fileAboveWithin files creating fuel key := by
  induction fuel generalizing key with
  | zero => rfl
  | succ fuel ih =>
      unfold Place.fileAboveWithin
      simp only [h.hasSource, ih]

theorem checkHierarchy (h : Same files files') (hfiles : files.WellFormed)
    (hfiles' : files'.WellFormed) (hkey : Plain key) (fail : Place.Fail) :
    Place.checkHierarchy files' key fail [] = Place.checkHierarchy files key fail [] := by
  unfold Place.checkHierarchy Place.fileAbove
  rw [h.fileAboveWithin, h.hasSource, h.isDirectory hfiles hfiles' hkey]

theorem checkExclusive (h : Same files files') (hfiles : files.WellFormed)
    (hfiles' : files'.WellFormed) (hkey : Plain key) (fail : Place.Fail) :
    Place.checkExclusive files' key fail = Place.checkExclusive files key fail := by
  unfold Place.checkExclusive
  rw [h.hasSource, h.isDirectory hfiles hfiles' hkey]

theorem checkMkdir (h : Same files files') (hfiles : files.WellFormed)
    (hfiles' : files'.WellFormed) (hkey : Plain key) (recursive : Bool) (fail : Place.Fail) :
    Place.checkMkdir files' key recursive fail [] = Place.checkMkdir files key recursive fail [] := by
  unfold Place.checkMkdir Place.fileAbove
  rw [h.fileAboveWithin, h.hasSource, h.isDirectory hfiles hfiles' hkey]

theorem absentCode (h : Same files files') (key : Key) :
    Place.absentCode files' key = Place.absentCode files key := by
  unfold Place.absentCode
  rw [h.hasSource]

theorem immovable (h : Same files files') (key : Key) :
    place.immovable files' key = place.immovable files key := by
  unfold Place.immovable
  rw [h]

end Same

/-!
# One version and its companions
-/

namespace Place

/-- What lies beside a version where nothing is compressed. -/
def companionOf (place : Place) (key : Key) (file : PlaceFile) : Flavor -> Option PlaceFile
  | Flavor.bytecode domain =>
      if domain ∈ place.bytecodeDomains key then
        (place.createBytecode key file.data file.scriptOptions domain).map
          (MapStore.codeFile file.stat.mtimeMs)
      else none
  | Flavor.compressed _ => none

/-- A version and its companions. -/
def versionOf (place : Place) (key : Key) (file : PlaceFile) : Option Flavor -> Option PlaceFile
  | none => some file
  | some flavor => place.companionOf key file flavor

/-- The script of the version compiles, if it is one. -/
def Compiles (place : Place) (key : Key) (file : PlaceFile) : Prop :=
  BytecodeDomain.script ∈ place.bytecodeDomains key ->
    place.createBytecode key file.data file.scriptOptions BytecodeDomain.script ≠ none

theorem badScript_iff {file : PlaceFile} :
    (place.bytecodeFor key file.data file.scriptOptions).any MapStore.badScript = true <->
      ¬ place.Compiles key file := by
  unfold Compiles bytecodeFor
  rw [List.any_map, List.any_eq_true]
  constructor
  · intro h hcompiles
    rcases h with ⟨domain, hdomain, hbad⟩
    have hboth := Bool.and_eq_true_iff.mp hbad
    have hscript : domain = BytecodeDomain.script := of_decide_eq_true hboth.1
    rw [hscript] at hdomain hboth
    exact hcompiles hdomain (Option.isNone_iff_eq_none.mp hboth.2)
  · intro h
    rw [Classical.not_imp, not_not] at h
    refine ⟨BytecodeDomain.script, h.1, ?_⟩
    show MapStore.badScript _ = true
    unfold MapStore.badScript
    rw [Bool.and_eq_true_iff]
    exact ⟨rfl, Option.isNone_iff_eq_none.mpr h.2⟩

end Place

/-- Every version lies beside all of its companions. -/
structure Complete (place : Place) (files : Files) : Prop where
  version : forall key file flavor, files.get (EntryKey.ofSource key) = some file ->
    files.get ⟨key, flavor⟩ = place.versionOf key file flavor
  compiles : forall key file, files.get (EntryKey.ofSource key) = some file ->
    place.Compiles key file
  plainly : forall key file, files.get (EntryKey.ofSource key) = some file ->
    Plainly place key file

structure Whole (place : Place) (files : Files) : Prop extends
  Sound place files, Complete place files

/-- No version has that companion, so none lies there. -/
theorem Whole.absent (h : Whole place files) {flavor : Flavor}
    (hnone : forall file, place.companionOf key file flavor = none) :
    files.get ⟨key, some flavor⟩ = none := by
  cases hget : files.get ⟨key, some flavor⟩ with
  | none => rfl
  | some companion =>
      rcases hasSource_iff.mp (h.derived _ companion hget (by simp)).1 with ⟨file, hfile⟩
      rw [h.version key file (some flavor) hfile] at hget
      exact absurd hget (by rw [Place.versionOf, hnone]; simp)

/-!
# Publications
-/

/-- What a publication leaves where {lit}`base` was. -/
def Holds (place : Place) (key : Key) (file : PlaceFile) (base new : Files) : Prop :=
  forall k, new.get k =
    if k.source = key then place.versionOf key file k.flavor else base.get k

namespace MapStore

theorem lastOf_compiled {input : PlaceFile} (flavor : Flavor) :
    lastOf ⟨key, some flavor⟩
        ((compiled (place.bytecodeFor key input.data input.scriptOptions)).map
          (fun code => (code.1, codeFile input.stat.mtimeMs code.2))) =
      place.companionOf key input flavor := by
  have hmem : forall companion, (⟨key, some flavor⟩, companion) ∈
      ((compiled (place.bytecodeFor key input.data input.scriptOptions)).map
        (fun code => (code.1, codeFile input.stat.mtimeMs code.2))) <->
      place.companionOf key input flavor = some companion := by
    intro companion
    rw [List.mem_map]
    constructor
    · intro h
      rcases h with ⟨⟨ck, data⟩, hcode, heq⟩
      rcases mem_compiled.mp hcode with ⟨code, hc, hkey, hdata⟩
      rcases code_key hc with ⟨hdomain, hcodeKey, hcreate⟩
      have hk : bytecodeKey key code.domain = ⟨key, some flavor⟩ := by
        rw [← hcodeKey, hkey]
        exact congrArg Prod.fst heq
      have hflavor : Flavor.bytecode code.domain = flavor :=
        Option.some.inj (congrArg EntryKey.flavor hk)
      rw [← hflavor, Place.companionOf, if_pos hdomain, ← hcreate, hdata]
      exact congrArg some (congrArg Prod.snd heq)
    · intro h
      cases flavor with
      | compressed encoding => cases h
      | bytecode domain =>
          dsimp only [Place.companionOf] at h
          split_ifs at h with hdomain
          rcases Option.map_eq_some_iff.mp h with ⟨data, hdata, hcompanion⟩
          rw [← hcompanion]
          exact ⟨(bytecodeKey key domain, data),
            mem_compiled.mpr ⟨_, List.mem_map_of_mem hdomain, rfl, hdata⟩, rfl⟩
  cases hcompanion : place.companionOf key input flavor with
  | none =>
      rw [lastOf_eq_none]
      intro hin
      rcases List.mem_map.mp hin with ⟨⟨k, companion⟩, hentry, hk⟩
      have hkey : k = ⟨key, some flavor⟩ := hk
      rw [hkey] at hentry
      cases hcompanion.symm.trans ((hmem companion).mp hentry)
  | some companion =>
      apply lastOf_of_mem ((hmem companion).mpr hcompanion)
      intro other hother
      exact Option.some.inj (((hmem other).mp hother).symm.trans hcompanion)

/-- A source is published with its companions, unless it is a script that does not
compile. -/
theorem publish_cases (hderived : Derived place files) (file : PlaceFile) :
    (¬ place.Compiles key file ∧
      publish place files key file = Except.error (scriptRefusal place key)) ∨
    place.Compiles key file ∧ exists new, publish place files key file = Except.ok new ∧
      Holds place key file files new := by
  by_cases hcompiles : place.Compiles key file
  · apply Or.inr
    have hgood : ¬ (place.bytecodeFor key file.data file.scriptOptions).any badScript = true :=
      fun hbad => Place.badScript_iff.mp hbad hcompiles
    cases hpublish : publish place files key file with
    | error refusal =>
        unfold publish at hpublish
        rw [codesOf_eq, if_neg hgood] at hpublish
        cases hpublish
    | ok new =>
        refine ⟨hcompiles, new, rfl, ?_⟩
        intro k
        rcases k with ⟨source, flavor⟩
        by_cases hsource : source = key
        · rw [if_pos hsource, hsource]
          cases flavor with
          | none => exact (get_publish_source hpublish key).trans (if_pos rfl)
          | some flavor =>
              rw [get_publish hpublish, lastOf_compiled]
              show _ = place.companionOf key file flavor
              cases place.companionOf key file flavor with
              | some companion => rfl
              | none =>
                  rw [Option.none_or]
                  split_ifs with hcompanion hself
                  · rfl
                  · cases congrArg EntryKey.flavor hself
                  · cases hget : files.get ⟨key, some flavor⟩ with
                    | none => rfl
                    | some companion =>
                        exact absurd (hderived _ companion hget (by simp)).2 hcompanion
        · have hlast : lastOf ⟨source, flavor⟩
              ((compiled (place.bytecodeFor key file.data file.scriptOptions)).map
                (fun code => (code.1, codeFile file.stat.mtimeMs code.2))) = none := by
            rw [lastOf_eq_none, List.map_map]
            intro hin
            rcases List.mem_map.mp hin with ⟨⟨ck, data⟩, hcode, hk⟩
            rcases mem_compiled.mp hcode with ⟨code, hc, hkey, _⟩
            have heq : bytecodeKey key code.domain = ⟨source, flavor⟩ := by
              rw [← (code_key hc).2.1, hkey]
              exact hk
            exact hsource (congrArg EntryKey.source heq).symm
          rw [if_neg hsource, get_publish hpublish, hlast, if_neg, if_neg]
          · rfl
          · intro heq
            exact hsource (congrArg EntryKey.source heq)
          · intro hcompanion
            exact hsource (Place.source_of_companion hcompanion).1
  · apply Or.inl
    refine ⟨hcompiles, ?_⟩
    unfold publish
    rw [codesOf_eq, if_pos (Place.badScript_iff.mpr hcompiles)]
    rfl

end MapStore

namespace SabStore

variable {env : Env}

theorem bytecodeChanges_roomy (hroomy : env.Roomy) (mtimeMs : Nat) (codes : List Place.Code) :
    bytecodeChanges env mtimeMs codes =
      if codes.any MapStore.badScript then Except.error Refusal.scriptDoesNotCompile
      else Except.ok (codes.map (fun code =>
        (code.key, code.data.map (MapStore.codeFile mtimeMs)))) := by
  induction codes with
  | nil => rfl
  | cons code rest ih =>
      have hplaced : code.data.filter (fun _ => env.fits code.key) = code.data := by
        rw [hroomy]
        cases code.data <;> rfl
      unfold bytecodeChanges
      rw [List.any_cons, ih]
      simp only [hplaced]
      cases hdata : code.data with
      | none =>
          by_cases hdomain : code.domain = BytecodeDomain.script
          · simp [MapStore.badScript, hdata, hdomain]
          · by_cases hrest : rest.any MapStore.badScript = true
            · simp [MapStore.badScript, hdata, hdomain, hrest, bind, Except.bind]
            · simp [MapStore.badScript, hdata, hdomain, hrest, bind, Except.bind]
      | some data =>
          by_cases hrest : rest.any MapStore.badScript = true
          · simp [MapStore.badScript, hdata, hrest, bind, Except.bind]
          · simp [MapStore.badScript, hdata, hrest, bind, Except.bind]

theorem storeShared_roomy (hplain : place.config.fs.bind FsConfig.compress = none)
    (hroomy : env.Roomy) (file : PlaceFile) :
    (¬ place.Compiles key file ∧
      storeShared place key file env = Except.error Refusal.scriptDoesNotCompile) ∨
    place.Compiles key file ∧ exists changes, storeShared place key file env = Except.ok changes ∧
      forall change, change ∈ changes <-> change = (EntryKey.ofSource key, some file) ∨
        change ∈ (place.bytecodeFor key file.data file.scriptOptions).map (fun code =>
          (code.key, code.data.map (MapStore.codeFile file.stat.mtimeMs))) := by
  have hcompressed : compressedChanges place key file env = [] := by
    unfold compressedChanges PlaceConfig.compressible
    rw [hplain]
    rfl
  have hcodes := bytecodeChanges_roomy hroomy file.stat.mtimeMs
    (place.bytecodeFor key file.data file.scriptOptions)
  by_cases hcompiles : place.Compiles key file
  · rw [if_neg (fun hbad => Place.badScript_iff.mp hbad hcompiles)] at hcodes
    cases hstore : storeShared place key file env with
    | error refusal =>
        unfold storeShared at hstore
        rw [if_pos (hroomy _), hcodes] at hstore
        cases hstore
    | ok changes =>
        rcases mem_storeShared hstore with ⟨codes, hcodes', hmem⟩
        cases hcodes.symm.trans hcodes'
        refine Or.inr ⟨hcompiles, changes, rfl, ?_⟩
        intro change
        rw [hmem, hcompressed, List.mem_nil_iff, or_false]
  · rw [if_pos (Place.badScript_iff.mpr hcompiles)] at hcodes
    apply Or.inl
    refine ⟨hcompiles, ?_⟩
    unfold storeShared
    rw [if_pos (hroomy _), hcodes]
    rfl

/-- The codes of a stored source, by their flavors. -/
theorem mem_codes {file : PlaceFile} {flavor : Flavor} {change : Option PlaceFile} :
    (⟨key, some flavor⟩, change) ∈
        (place.bytecodeFor key file.data file.scriptOptions).map (fun code =>
          (code.key, code.data.map (MapStore.codeFile file.stat.mtimeMs))) <->
      exists domain, flavor = Flavor.bytecode domain ∧ domain ∈ place.bytecodeDomains key ∧
        change = place.companionOf key file flavor := by
  unfold Place.bytecodeFor
  rw [List.map_map, List.mem_map]
  constructor
  · intro h
    rcases h with ⟨domain, hdomain, heq⟩
    have hflavor : Flavor.bytecode domain = flavor :=
      Option.some.inj (congrArg (fun change => change.1.flavor) heq)
    refine ⟨domain, hflavor.symm, hdomain, ?_⟩
    rw [← hflavor, Place.companionOf, if_pos hdomain]
    exact (congrArg Prod.snd heq).symm
  · intro h
    rcases h with ⟨domain, hflavor, hdomain, hchange⟩
    refine ⟨domain, hdomain, ?_⟩
    rw [hflavor, Place.companionOf, if_pos hdomain] at hchange
    rw [hchange, hflavor]
    rfl

/-- A source is stored with its companions, unless it is a script that does not compile. -/
theorem storeShared_cases (hplain : place.config.fs.bind FsConfig.compress = none)
    (hroomy : env.Roomy) (file : PlaceFile)
    (habsent : forall flavor, (forall file, place.companionOf key file flavor = none) ->
      files.get ⟨key, some flavor⟩ = none) :
    (¬ place.Compiles key file ∧
      storeShared place key file env = Except.error Refusal.scriptDoesNotCompile) ∨
    place.Compiles key file ∧ exists changes, storeShared place key file env = Except.ok changes ∧
      Holds place key file files (flush files changes) := by
  rcases @storeShared_roomy place key env hplain hroomy file with
    herror | ⟨hcompiles, changes, hstore, hmem⟩
  · exact Or.inl herror
  · refine Or.inr ⟨hcompiles, changes, hstore, ?_⟩
    intro k
    rcases k with ⟨source, flavor⟩
    rw [get_flush]
    by_cases hsource : source = key
    · rw [if_pos hsource, hsource]
      cases flavor with
      | none =>
          have hlast := @lastOf_publication_source place key file [] env changes hstore key
          have hchanges : unstaged place [] ++ changes = changes := rfl
          have hself : lastOf ⟨key, none⟩ changes = some (some file) := by
            rw [hchanges, if_pos rfl] at hlast
            exact hlast
          rw [hself]
          rfl
      | some flavor =>
          have hchange : forall change, (⟨key, some flavor⟩, change) ∈ changes <->
              exists domain, flavor = Flavor.bytecode domain ∧
                domain ∈ place.bytecodeDomains key ∧
                change = place.companionOf key file flavor := by
            intro change
            rw [hmem, mem_codes]
            exact or_iff_right (fun hself => by cases congrArg (fun change => change.1.flavor) hself)
          show _ = place.companionOf key file flavor
          by_cases hcovered : exists domain, flavor = Flavor.bytecode domain ∧
              domain ∈ place.bytecodeDomains key
          · rcases hcovered with ⟨domain, hflavor, hdomain⟩
            have hlast : lastOf ⟨key, some flavor⟩ changes =
                some (place.companionOf key file flavor) := by
              apply lastOf_of_mem ((hchange _).mpr ⟨domain, hflavor, hdomain, rfl⟩)
              intro other hother
              rcases (hchange other).mp hother with ⟨_, _, _, heq⟩
              exact heq
            rw [hlast]
          · have hnone : forall file, place.companionOf key file flavor = none := by
              intro file
              cases flavor with
              | compressed encoding => rfl
              | bytecode domain => exact if_neg (fun hdomain => hcovered ⟨domain, rfl, hdomain⟩)
            have hlast : lastOf ⟨key, some flavor⟩ changes = none := by
              rw [lastOf_eq_none]
              intro hin
              rcases List.mem_map.mp hin with ⟨⟨k, change⟩, hentry, hk⟩
              have hkey : k = ⟨key, some flavor⟩ := hk
              rw [hkey] at hentry
              rcases (hchange change).mp hentry with ⟨domain, hflavor, hdomain, _⟩
              exact hcovered ⟨domain, hflavor, hdomain⟩
            rw [hlast, hnone]
            exact habsent flavor hnone
    · have hlast : lastOf ⟨source, flavor⟩ changes = none := by
        rw [lastOf_eq_none]
        intro hin
        rcases List.mem_map.mp hin with ⟨change, hchange, hk⟩
        rcases storeShared_ok hstore with ⟨companions, hchanges, hcompanions⟩
        rw [hchanges] at hchange
        have hchangeSource : change.1.source = source := congrArg EntryKey.source hk
        rcases List.mem_cons.mp hchange with hself | hcompanion
        · rw [hself] at hchangeSource
          exact hsource hchangeSource.symm
        · exact hsource (hchangeSource.symm.trans (hcompanions change hcompanion).1)
      rw [if_neg hsource, hlast]

end SabStore

/-!
# One mutation
-/

theorem Portable.input (hp : Portable place) (key : Key) (raw : Bytes) (syscall : Syscall)
    (mtimeMs : Nat) :
    SabStore.input place key raw mtimeMs = (MapStore.input place key raw syscall mtimeMs).2 := by
  unfold SabStore.input MapStore.input
  dsimp only
  cases hprepared : place.prepared key with
  | none =>
      have hpreparer : place.preparerOf key = none := by
        unfold Place.preparerOf
        rw [hprepared]
        rfl
      rw [hpreparer]
  | some name =>
      rcases Option.isSome_iff_exists.mp (hp.bound key name hprepared) with ⟨preparer, hname⟩
      have hpreparer : place.preparerOf key = some preparer := by
        unfold Place.preparerOf
        rw [hprepared]
        exact hname
      rw [hpreparer]

namespace SabStore

variable {env : Env} {op : Mutation}

theorem changes_start {plan : Plan}
    (h : start place files [] (locksOf files op).isSome env.now op = Except.ok plan) :
    changes place files env op = plan.changes place files env := by
  unfold changes
  rw [h]
  rfl

theorem run_failed {refusal : Refusal} (h : changes place files env op = Except.error refusal) :
    run place files env op = (files, Except.error refusal) := by
  unfold run
  rw [h]

theorem run_flushed {changes : List Change}
    (h : SabStore.changes place files env op = Except.ok changes) :
    run place files env op = (flush files changes, Except.ok ()) := by
  unfold run
  rw [h]

theorem run_refused {refusal : Refusal}
    (h : start place files [] (locksOf files op).isSome env.now op = Except.error refusal) :
    run place files env op = (files, Except.error refusal) := by
  apply run_failed
  unfold changes
  rw [h]
  rfl

theorem run_now {changes : List Change}
    (h : start place files [] (locksOf files op).isSome env.now op =
      Except.ok (Plan.now changes)) :
    run place files env op = (flush files changes, Except.ok ()) :=
  run_flushed (changes_start h)

theorem run_unprepared {removed : List Key} {refusal : Refusal}
    (h : start place files [] (locksOf files op).isSome env.now op =
      Except.ok (Plan.publish target (Except.error refusal) removed)) :
    run place files env op = (files, Except.error refusal) :=
  run_failed (changes_start h)

theorem run_unstored {file : PlaceFile} {removed : List Key} {refusal : Refusal}
    (h : start place files [] (locksOf files op).isSome env.now op =
      Except.ok (Plan.publish target (Except.ok file) removed))
    (hstore : storeShared place target file env = Except.error refusal) :
    run place files env op = (files, Except.error refusal) := by
  apply run_failed
  rw [changes_start h]
  unfold Plan.changes
  simp only [bind, Except.bind, hstore]

theorem run_stored {file : PlaceFile} {removed : List Key} {changes : List Change}
    (h : start place files [] (locksOf files op).isSome env.now op =
      Except.ok (Plan.publish target (Except.ok file) removed))
    (hstore : storeShared place target file env = Except.ok changes) :
    run place files env op = (flush files (unstaged place removed ++ changes), Except.ok ()) := by
  apply run_flushed
  rw [changes_start h]
  unfold Plan.changes
  simp only [bind, Except.bind, hstore]

theorem run_uncopied {moves : List (EntryKey × EntryKey)} {refusal : Refusal}
    (h : start place files [] (locksOf files op).isSome env.now op = Except.ok (Plan.move moves))
    (hcopies : copiesOf files env moves = Except.error refusal) :
    run place files env op = (files, Except.error refusal) := by
  apply run_failed
  rw [changes_start h]
  unfold Plan.changes
  simp only [bind, Except.bind, hcopies]

theorem run_moved {moves : List (EntryKey × EntryKey)} {copies : List Copy}
    (h : start place files [] (locksOf files op).isSome env.now op = Except.ok (Plan.move moves))
    (hcopies : copiesOf files env moves = Except.ok copies) :
    run place files env op = (flush files (treeChanges copies), Except.ok ()) := by
  apply run_flushed
  rw [changes_start h]
  unfold Plan.changes
  simp only [bind, Except.bind, hcopies]

end SabStore

theorem Whole.absent_same (h : Whole place files) (hsame : Same files files') (flavor : Flavor)
    (hnone : forall file, place.companionOf key file flavor = none) :
    files'.get ⟨key, some flavor⟩ = none := by
  rw [hsame]
  exact h.absent hnone

section

variable {env : Env} (hp : Portable place) (hroomy : env.Roomy) (h : Whole place files)
  (hsame : Same files files')
include hp hroomy h hsame

/-- What is published without anything removed. -/
theorem publishRaw_agree {op : Mutation} {raw : Bytes}
    (hstart : SabStore.start place files' [] (SabStore.locksOf files' op).isSome env.now op =
      Except.ok (SabStore.Plan.publish key (SabStore.input place key raw env.now) [])) :
    Agree place (MapStore.publishRaw place files key raw env.now)
      (SabStore.run place files' env op) := by
  rw [hp.input key raw Syscall.openFile env.now] at hstart
  unfold MapStore.publishRaw
  cases hinput : (MapStore.input place key raw Syscall.openFile env.now).2 with
  | error refusal =>
      rw [hinput] at hstart
      rw [SabStore.run_unprepared hstart]
      exact Agree.unchanged hsame _
  | ok file =>
      rw [hinput] at hstart
      dsimp only
      rcases MapStore.publish_cases h.derived file with
        ⟨hbad, hpublish⟩ | ⟨hgood, new, hpublish, hnew⟩
      · rcases SabStore.storeShared_cases hp.uncompressed hroomy file
          (h.absent_same hsame) with ⟨_, hstore⟩ | ⟨hgood, _⟩
        · rw [hpublish, SabStore.run_unstored hstart hstore]
          exact ⟨Alike.uncompiled key, hsame⟩
        · exact absurd hgood hbad
      · rcases SabStore.storeShared_cases hp.uncompressed hroomy file
          (h.absent_same hsame) with ⟨hbad, _⟩ | ⟨_, changes, hstore, hnew'⟩
        · exact absurd hgood hbad
        · rw [hpublish, SabStore.run_stored hstart hstore]
          refine ⟨Alike.done, ?_⟩
          intro k
          have hchanges : SabStore.unstaged place [] ++ changes = changes := rfl
          show (SabStore.flush files' (SabStore.unstaged place [] ++ changes)).get k = new.get k
          rw [hchanges, hnew', hnew, hsame]

variable (h' : files'.WellFormed)
include h'

theorem write_agree (hkey : Plain key) (data : Bytes) (exclusive : Bool) :
    Agree place (MapStore.run place files env.now (Mutation.write key data exclusive))
      (SabStore.run place files' env (Mutation.write key data exclusive)) := by
  have hexclusive := hsame.checkExclusive h.wellFormed h' hkey
    (place.failOn Syscall.openFile key)
  have hhierarchy := hsame.checkHierarchy h.wellFormed h' hkey
    (place.failOn Syscall.openFile key)
  show Agree place (MapStore.write place files key data exclusive env.now) _
  unfold MapStore.write
  dsimp only
  have hstart : forall locked, SabStore.start place files' [] locked env.now
      (Mutation.write key data exclusive) =
        ((if exclusive = true then
            Place.checkExclusive files key (place.failOn Syscall.openFile key)
          else Except.ok ()) >>= fun _ =>
            (Place.checkHierarchy files key (place.failOn Syscall.openFile key) []) >>= fun _ =>
              Except.ok (SabStore.Plan.publish key (SabStore.input place key data env.now) [])) := by
    intro locked
    show SabStore.write place files' [] key data exclusive env.now = _
    unfold SabStore.write SabStore.create
    dsimp only
    rw [hexclusive, hhierarchy]
  cases hfirst : (if exclusive = true then
      Place.checkExclusive files key (place.failOn Syscall.openFile key) else Except.ok ()) with
  | error refusal =>
      rw [SabStore.run_refused ((hstart _).trans (by rw [hfirst]; rfl))]
      exact Agree.unchanged hsame _
  | ok _ =>
      cases hsecond : Place.checkHierarchy files key (place.failOn Syscall.openFile key) [] with
      | error refusal =>
          rw [SabStore.run_refused ((hstart _).trans (by rw [hfirst, hsecond]; rfl))]
          exact Agree.unchanged hsame _
      | ok _ =>
          exact publishRaw_agree hp hroomy h hsame
            ((hstart _).trans (by rw [hfirst, hsecond]; rfl))

theorem append_agree (hkey : Plain key) (data : Bytes) :
    Agree place (MapStore.run place files env.now (Mutation.append key data))
      (SabStore.run place files' env (Mutation.append key data)) := by
  have hhierarchy := hsame.checkHierarchy h.wellFormed h' hkey
    (place.failOn Syscall.openFile key)
  show Agree place (MapStore.append place files key data env.now) _
  unfold MapStore.append
  dsimp only
  by_cases hprepared : (place.prepared key).isSome = true
  · have hstart : forall locked, SabStore.start place files' [] locked env.now
        (Mutation.append key data) = Except.error (place.failOn Syscall.openFile key
          ErrorCode.enotsup (some "prepared source")) := by
      intro locked
      show SabStore.append place files' [] key data env.now = _
      unfold SabStore.append
      rw [if_pos hprepared]
    rw [if_pos hprepared, SabStore.run_refused (hstart _)]
    exact Agree.unchanged hsame _
  · have hjoined : SabStore.joined files' key data = SabStore.joined files key data := by
      unfold SabStore.joined
      rw [hsame]
    rw [if_neg hprepared]
    cases hcheck : Place.checkHierarchy files key (place.failOn Syscall.openFile key) [] with
    | error refusal =>
        have hstart : forall locked, SabStore.start place files' [] locked env.now
            (Mutation.append key data) = Except.error refusal := by
          intro locked
          show SabStore.append place files' [] key data env.now = _
          unfold SabStore.append SabStore.create
          dsimp only
          rw [if_neg hprepared, hhierarchy, hcheck]
          rfl
        rw [SabStore.run_refused (hstart _)]
        exact Agree.unchanged hsame _
    | ok _ =>
        apply publishRaw_agree hp hroomy h hsame
        have hok := @SabStore.append_of place files' [] env.now key data
          (Bool.not_eq_true _ ▸ hprepared) (hhierarchy.trans hcheck)
        rw [hjoined] at hok
        exact hok

end

/-!
# Removals
-/

/-- The same keys leave, companions included. -/
theorem Same.removed (hsame : Same files files') {keys keys' : List Key}
    (hkeys : forall key, key ∈ keys' <-> key ∈ keys) :
    Same (keys.foldl (MapStore.remove place) files)
      (SabStore.flush files' (SabStore.unstaged place keys')) := by
  intro k
  rw [SabStore.get_flush, SabStore.lastOf_unstaged, MapStore.get_foldl_remove, hsame]
  simp only [hkeys]
  split_ifs <;> rfl

theorem Same.single (hsame : Same files files') (key : Key) :
    Same (MapStore.remove place files key)
      (SabStore.flush files' (SabStore.unstaged place [key])) :=
  @Same.removed place files files' hsame [key] [key] (fun _ => Iff.rfl)

section

variable {env : Env} (h : files.WellFormed) (h' : files'.WellFormed) (hsame : Same files files')
  (hkey : Plain key)
include h h' hsame hkey

theorem unlink_agree (directory : Bool) :
    Agree place (MapStore.run place files env.now (Mutation.unlink key directory))
      (SabStore.run place files' env (Mutation.unlink key directory)) := by
  have hstart : forall locked, SabStore.start place files' [] locked env.now
      (Mutation.unlink key directory) =
        if !directory ∧ files.hasSource key then
          Except.ok (SabStore.Plan.now (SabStore.unstaged place [key]))
        else
          Except.error (place.failOn Syscall.unlink key
            (if files.isDirectory key then ErrorCode.eisdir else Place.absentCode files key)
            none) := by
    intro locked
    show SabStore.unlink place files' key directory = _
    unfold SabStore.unlink
    rw [hsame.hasSource, hsame.isDirectory h h' hkey, hsame.absentCode]
  show Agree place (MapStore.unlink place files key directory) _
  unfold MapStore.unlink
  by_cases hfile : !directory ∧ files.hasSource key
  · rw [if_pos hfile, SabStore.run_now ((hstart _).trans (if_pos hfile))]
    exact ⟨Alike.done, Same.single hsame key⟩
  · rw [if_neg hfile, SabStore.run_refused ((hstart _).trans (if_neg hfile))]
    exact Agree.unchanged hsame _

theorem mkdir_agree (recursive : Bool) :
    Agree place (MapStore.run place files env.now (Mutation.mkdir key recursive))
      (SabStore.run place files' env (Mutation.mkdir key recursive)) := by
  have hcheck := hsame.checkMkdir h h' hkey recursive (place.failOn Syscall.mkdir key)
  have hstart : forall locked, SabStore.start place files' [] locked env.now
      (Mutation.mkdir key recursive) =
        (Place.checkMkdir files key recursive (place.failOn Syscall.mkdir key) []) >>=
          fun _ => Except.ok (SabStore.Plan.now []) := by
    intro locked
    show SabStore.mkdir place files' [] key recursive = _
    unfold SabStore.mkdir
    rw [hcheck]
  show Agree place (files, Place.checkMkdir files key recursive (place.failOn Syscall.mkdir key) []) _
  cases hresult : Place.checkMkdir files key recursive (place.failOn Syscall.mkdir key) [] with
  | error refusal =>
      rw [SabStore.run_refused ((hstart _).trans (by rw [hresult]; rfl))]
      exact Agree.unchanged hsame _
  | ok _ =>
      rw [SabStore.run_now ((hstart _).trans (by rw [hresult]; rfl))]
      exact ⟨Alike.done, hsame⟩

theorem rm_agree (directory force recursive : Bool) :
    Agree place (MapStore.run place files env.now (Mutation.rm key directory force recursive))
      (SabStore.run place files' env (Mutation.rm key directory force recursive)) := by
  have hnil := hsame.keysUnder_nil h h' hkey
  have hstart : forall locked, SabStore.start place files' [] locked env.now
      (Mutation.rm key directory force recursive) =
        if !directory ∧ files.hasSource key then
          Except.ok (SabStore.Plan.now (SabStore.unstaged place [key]))
        else if files.keysUnder key = [] then
          if force then Except.ok (SabStore.Plan.now [])
          else Except.error (place.failOn Syscall.rm key (Place.absentCode files key) none)
        else if !recursive then
          Except.error (Refusal.isDirectory Syscall.rm (place.pathOf key))
        else Except.ok (SabStore.Plan.now (SabStore.unstaged place (files'.keysUnder key))) := by
    intro locked
    show SabStore.rm place files' key directory force recursive = _
    unfold SabStore.rm
    rw [hsame.hasSource, hsame.absentCode]
    simp only [hnil]
  show Agree place (MapStore.rm place files key directory force recursive) _
  unfold MapStore.rm
  by_cases hfile : !directory ∧ files.hasSource key
  · rw [if_pos hfile, SabStore.run_now ((hstart _).trans (if_pos hfile))]
    exact ⟨Alike.done, Same.single hsame key⟩
  · rw [if_neg hfile] at hstart ⊢
    by_cases hempty : files.keysUnder key = []
    · rw [if_pos hempty] at hstart ⊢
      cases force with
      | true =>
          rw [SabStore.run_now (hstart _)]
          exact ⟨Alike.done, hsame⟩
      | false =>
          rw [SabStore.run_refused (hstart _)]
          exact Agree.unchanged hsame _
    · rw [if_neg hempty] at hstart ⊢
      cases recursive with
      | false =>
          rw [SabStore.run_refused (hstart _)]
          exact Agree.unchanged hsame _
      | true =>
          rw [SabStore.run_now (hstart _)]
          exact ⟨Alike.done, hsame.removed (hsame.keysUnder h h' hkey)⟩

end

/-!
# Renames
-/

theorem Place.collectMoves_error {fail : Place.Fail} {keys : List Key} {refusal : Refusal}
    (h : place.collectMoves files source target fail keys = Except.error refusal) :
    exists key detail, key ∈ keys ∧ place.immovable files key ≠ none ∧
      refusal = fail ErrorCode.enotsup detail := by
  induction keys with
  | nil => cases h
  | cons key rest ih =>
      unfold Place.collectMoves at h
      cases himmovable : place.immovable files key with
      | some reason =>
          rw [himmovable] at h
          exact ⟨key, _, List.mem_cons_self, by rw [himmovable]; simp, (Except.error.inj h).symm⟩
      | none =>
          rw [himmovable] at h
          cases hrest : place.collectMoves files source target fail rest with
          | ok moves =>
              rw [hrest] at h
              cases h
          | error other =>
              rw [hrest] at h
              cases h
              rcases ih hrest with ⟨k, detail, hk, himmovable', heq⟩
              exact ⟨k, detail, List.mem_cons_of_mem _ hk, himmovable', heq⟩

/-- Which source is in the way may differ, whether one is may not. -/
theorem Same.collectMoves (hsame : Same files files') {fail : Place.Fail} {keys keys' : List Key}
    (hkeys : forall key, key ∈ keys' <-> key ∈ keys) :
    (exists detail detail',
      place.collectMoves files source target fail keys =
        Except.error (fail ErrorCode.enotsup detail) ∧
      place.collectMoves files' source target fail keys' =
        Except.error (fail ErrorCode.enotsup detail')) ∨
    exists moves moves', place.collectMoves files source target fail keys = Except.ok moves ∧
      place.collectMoves files' source target fail keys' = Except.ok moves' := by
  cases hmoves : place.collectMoves files source target fail keys with
  | error refusal =>
      rcases Place.collectMoves_error hmoves with ⟨key, detail, hkey, himmovable, heq⟩
      cases hmoves' : place.collectMoves files' source target fail keys' with
      | error refusal' =>
          rcases Place.collectMoves_error hmoves' with ⟨_, detail', _, _, heq'⟩
          rw [heq, heq']
          exact Or.inl ⟨detail, detail', rfl, rfl⟩
      | ok moves' =>
          rw [← hsame.immovable] at himmovable
          exact absurd ((Place.collectMoves_ok hmoves').2 key ((hkeys key).mpr hkey)) himmovable
  | ok moves =>
      cases hmoves' : place.collectMoves files' source target fail keys' with
      | error refusal' =>
          rcases Place.collectMoves_error hmoves' with ⟨key, _, hkey, himmovable, _⟩
          rw [hsame.immovable] at himmovable
          exact absurd ((Place.collectMoves_ok hmoves).2 key ((hkeys key).mp hkey)) himmovable
      | ok moves' => exact Or.inr ⟨moves, moves', rfl, rfl⟩

theorem Same.subtreeMoves (h : files.WellFormed) (h' : files'.WellFormed)
    (hsame : Same files files') (hsource : Plain source) (htarget : Plain target) :
    (exists refusal refusal', refusal.code = refusal'.code ∧
      place.subtreeMoves files source target [] = Except.error refusal ∧
      place.subtreeMoves files' source target [] = Except.error refusal') ∨
    exists moves moves', place.subtreeMoves files source target [] = Except.ok moves ∧
      place.subtreeMoves files' source target [] = Except.ok moves' := by
  have hnil := hsame.keysUnder_nil h h' hsource
  unfold Place.subtreeMoves
  simp only [hnil, hsame.hasSource, hsame.isDirectory h h' htarget,
    hsame.checkHierarchy h h' htarget]
  split_ifs
  · exact Or.inl ⟨_, _, rfl, rfl, rfl⟩
  · exact Or.inr ⟨[], [], rfl, rfl⟩
  · exact Or.inl ⟨_, _, rfl, rfl, rfl⟩
  · exact Or.inl ⟨_, _, rfl, rfl, rfl⟩
  · exact Or.inl ⟨_, _, rfl, rfl, rfl⟩
  · cases Place.checkHierarchy files target (place.failRename source target) [] with
    | error refusal => exact Or.inl ⟨refusal, refusal, rfl, rfl, rfl⟩
    | ok _ =>
        rcases @Same.collectMoves place files files' source target hsame
          (place.failRename source target) _ _ (hsame.keysUnder h h' hsource) with
          ⟨detail, detail', hmoves, hmoves'⟩ | hmoves
        · exact Or.inl ⟨place.failRename source target ErrorCode.enotsup detail,
            place.failRename source target ErrorCode.enotsup detail', rfl, hmoves, hmoves'⟩
        · exact Or.inr hmoves

theorem Derived.same (h : Derived place files) (hsame : Same files files') :
    Derived place files' := by
  intro k file hget hflavor
  rw [hsame] at hget
  rw [hsame.hasSource]
  exact h k file hget hflavor

/-- Nothing is attached to an entry of a subtree that moves. -/
theorem Whole.bare (h : Whole place files) {flavor : Option Flavor} {entry : PlaceFile}
    (hentry : files.get ⟨key, flavor⟩ = some entry) (himmovable : place.immovable files key = none) :
    entry.scriptOptions = none ∧ entry.metadata = none := by
  cases flavor with
  | none => exact (Place.immovable_none himmovable).2 entry hentry
  | some flavor =>
      rcases hasSource_iff.mp (h.derived _ entry hentry (by simp)).1 with ⟨file, hfile⟩
      rw [h.version key file (some flavor) hfile] at hentry
      cases flavor with
      | compressed encoding => cases hentry
      | bytecode domain =>
          dsimp only [Place.versionOf, Place.companionOf] at hentry
          split_ifs at hentry
          rcases Option.map_eq_some_iff.mp hentry with ⟨data, _, heq⟩
          rw [← heq]
          exact ⟨rfl, rfl⟩

/-- Entries and copies of them are the same. -/
theorem Rekeyed.same (h : Whole place files) (hsame : Same files files')
    {moves : List (EntryKey × EntryKey)} (hmovable : place.Movable files source target moves)
    {new new' : Files} (hnew : Rekeyed id source target files new)
    (hnew' : Rekeyed SabStore.copyOf source target files' new') : Same new new' := by
  intro k
  rcases k with ⟨key, flavor⟩
  by_cases htarget : Above slash target key
  · rcases htarget with ⟨rest, hrest⟩
    rw [hrest, hnew.inside, hnew'.inside, hsame]
    cases hentry : files.get ⟨source ++ slash :: rest, flavor⟩ with
    | none => rfl
    | some entry =>
        have hhas : files.hasSource (source ++ slash :: rest) = true := by
          cases flavor with
          | none => exact hasSource_iff.mpr ⟨entry, hentry⟩
          | some flavor => exact (h.derived _ entry hentry (by simp)).1
        have hbare := h.bare hentry (hmovable.movable _ hhas ⟨rest, rfl⟩)
        exact congrArg some (faithful_copyOf.bare hbare.1 hbare.2)
  · by_cases hgone : Above slash source key
    · rcases hgone with ⟨rest, hrest⟩
      rw [hrest, hnew.gone, hnew'.gone]
    · rw [hnew.kept key flavor hgone htarget, hnew'.kept key flavor hgone htarget, hsame]

theorem SabStore.get_unstaged_one (key : Key) (k : EntryKey) :
    (flush files (unstaged place [key])).get k =
      if k = EntryKey.ofSource key ∨ k ∈ place.companions key then none else files.get k := by
  rw [get_flush, lastOf_unstaged]
  simp only [List.mem_singleton, exists_eq_left]
  split_ifs <;> rfl

theorem SabStore.absent_unstaged
    (h : forall flavor, (forall file, place.companionOf key file flavor = none) ->
      files.get ⟨key, some flavor⟩ = none) (keys : List Key) (flavor : Flavor)
    (hnone : forall file, place.companionOf key file flavor = none) :
    (flush files (unstaged place keys)).get ⟨key, some flavor⟩ = none := by
  rw [get_flush, lastOf_unstaged]
  split_ifs
  · rfl
  · exact h flavor hnone

/-- Raw bytes come out of the pipeline as they went in. -/
theorem Plainly.input {file : PlaceFile} (h : Plainly place key file)
    (hprepared : place.prepared key = none) :
    SabStore.input place key file.data file.stat.mtimeMs = Except.ok file := by
  have hpreparer : place.preparerOf key = none := by
    unfold Place.preparerOf
    rw [hprepared]
    rfl
  rcases h.bare hprepared with ⟨hoptions, hmetadata⟩
  have hfile : (⟨file.data, file.stat, file.scriptOptions, file.metadata⟩ : PlaceFile) = file :=
    rfl
  rw [hoptions, hmetadata] at hfile
  unfold SabStore.input
  dsimp only
  rw [hpreparer, ← h.stat]
  exact congrArg Except.ok hfile

/-- A subtree that can move ends up the same in both stores. -/
theorem Same.moved (h : Whole place files) (h' : files'.WellFormed) (hsame : Same files files')
    (hsource : Plain source) (htarget : Plain target) {moves moves' : List (EntryKey × EntryKey)}
    (hmoves : place.subtreeMoves files source target [] = Except.ok moves)
    (hmoves' : place.subtreeMoves files' source target [] = Except.ok moves') {env : Env}
    {copies : List SabStore.Copy}
    (hcopies : SabStore.copiesOf files' env moves' = Except.ok copies) :
    Same ((moves.filterMap (fun move =>
        (files.get move.1).map (fun entry => (move.2, entry)))).foldl
          (fun files entry => files.set entry.1 entry.2)
          ((moves.map Prod.fst).foldl PlaceFiles.delete files))
      (SabStore.flush files' (SabStore.treeChanges copies)) := by
  have hderived' := h.derived.same hsame
  rcases Place.subtreeMoves_inhabited h.wellFormed hsource hmoves with ⟨key, hkey, hbelow⟩
  have hkey' : files'.hasSource key = true := (hsame.hasSource key).trans hkey
  rcases Place.subtreeMoves_ok h.wellFormed hsource htarget hmoves with ⟨heq, hnil⟩ | hmovable
  · rcases Place.subtreeMoves_ok h' hsource htarget hmoves' with ⟨_, hnil'⟩ | hmovable'
    · rw [SabStore.copiesOf_eq hcopies, hnil, hnil']
      exact hsame
    · exact absurd heq.symm (hmovable'.apart hkey' hbelow).ne
  · have hapart := hmovable.apart hkey hbelow
    rcases Place.subtreeMoves_ok h' hsource htarget hmoves' with ⟨heq, _⟩ | hmovable'
    · exact absurd heq.symm hapart.ne
    · exact Rekeyed.same h hsame hmovable
        (MapStore.moveTree_rekeyed hmovable h.derived hapart)
        (SabStore.moveTree_rekeyed hmovable' hderived' hapart hcopies)

theorem SabStore.copiesOf_roomy (h : files.WellFormed) (hderived : Derived place files)
    (hsource : Plain source) (htarget : Plain target) {moves : List (EntryKey × EntryKey)}
    (hmoves : place.subtreeMoves files source target [] = Except.ok moves) {env : Env}
    (hroomy : env.Roomy) : exists copies, copiesOf files env moves = Except.ok copies := by
  apply copiesOf_of hroomy
  intro move hmove
  rcases Place.subtreeMoves_ok h hsource htarget hmoves with ⟨_, hnil⟩ | hmovable
  · rw [hnil] at hmove
    cases hmove
  · rcases (hmovable.mem_iff hderived).mp hmove with ⟨rest, flavor, file, hget, hpair⟩
    rw [hpair]
    exact has_iff.mpr ⟨file, hget⟩

section

variable {env : Env} (hp : Portable place) (hroomy : env.Roomy) (h : Whole place files)
  (h' : files'.WellFormed) (hsame : Same files files')
include hroomy h h' hsame

theorem rename_tree_agree (hsource : Plain source) (htarget : Plain target)
    (hfile : files.hasSource source = false) (hdirectory : files.isDirectory source = true)
    (directory : Bool) :
    Agree place (MapStore.run place files env.now (Mutation.rename source target directory))
      (SabStore.run place files' env (Mutation.rename source target directory)) := by
  have hfile' : files'.hasSource source = false := (hsame.hasSource source).trans hfile
  have hdirectory' : files'.isDirectory source = true :=
    (hsame.isDirectory h.wellFormed h' hsource).trans hdirectory
  rw [MapStore.rename_tree hfile hdirectory]
  rcases @Same.subtreeMoves place files files' source target h.wellFormed h' hsame hsource htarget
    with ⟨refusal, refusal', hcode, hmoves, hmoves'⟩ | ⟨moves, moves', hmoves, hmoves'⟩
  · have hrun : MapStore.moveTree place files source target = (files, Except.error refusal) := by
      unfold MapStore.moveTree
      rw [hmoves]
    have hrun' : SabStore.run place files' env (Mutation.rename source target directory) =
        (files', Except.error refusal') := by
      rcases SabStore.run_tree place target hfile' hdirectory' env directory with
        ⟨other, hrun, hother | ⟨_, hother, _⟩⟩ | ⟨_, _, hother, _⟩
      · cases hmoves'.symm.trans hother
        exact hrun
      · cases hmoves'.symm.trans hother
      · cases hmoves'.symm.trans hother
    rw [hrun, hrun']
    exact ⟨Alike.refused refusal refusal' hcode, hsame⟩
  · rcases SabStore.copiesOf_roomy h' (h.derived.same hsame) hsource htarget hmoves' hroomy with
      ⟨copies, hcopies⟩
    have hrun' : SabStore.run place files' env (Mutation.rename source target directory) =
        (SabStore.flush files' (SabStore.treeChanges copies), Except.ok ()) := by
      rcases SabStore.run_tree place target hfile' hdirectory' env directory with
        ⟨other, _, hother | ⟨_, hother, hfull⟩⟩ | ⟨_, _, hother, hcopied, hrun⟩
      · cases hmoves'.symm.trans hother
      · cases hmoves'.symm.trans hother
        cases hcopies.symm.trans hfull
      · cases hmoves'.symm.trans hother
        cases hcopies.symm.trans hcopied
        exact hrun
    unfold MapStore.moveTree
    rw [hmoves, hrun']
    dsimp only
    rw [← List.foldl_map]
    exact ⟨Alike.done, hsame.moved h h' hsource htarget hmoves hmoves' hcopies⟩

include hp

/-- A source renamed to itself is published again as it was. -/
theorem rename_self_agree (hsource : Plain source) {current : PlaceFile}
    (hcurrent : files.get (EntryKey.ofSource source) = some current)
    (hprepared : place.prepared source = none) :
    Agree place (files, Except.ok ())
      (SabStore.run place files' env (Mutation.rename source source false)) := by
  have hcurrent' : files'.get (EntryKey.ofSource source) = some current :=
    (hsame _).trans hcurrent
  have hclear : Place.Clear files' [] source := by
    constructor
    · intro file hfile _ habove
      rcases hfile with hfile | hfile
      · rw [hsame.hasSource] at hfile
        exact h.hierarchical file source (Or.inl hfile)
          (Or.inl (hasSource_iff.mpr ⟨current, hcurrent⟩)) habove
      · cases hfile
    · exact Or.inl (hasSource_iff.mpr ⟨current, hcurrent'⟩)
  have hstart : forall locked, SabStore.start place files' [] locked env.now
      (Mutation.rename source source false) =
        Except.ok (SabStore.Plan.publish source (Except.ok current) [source]) := by
    intro locked
    rw [← (h.plainly source current hcurrent).input hprepared]
    apply SabStore.rename_publish_of hcurrent' rfl
    · rw [hprepared]
      rfl
    · exact (Place.checkHierarchy_ok h'.indexed hsource).mpr hclear
  rcases SabStore.storeShared_cases hp.uncompressed hroomy current
    (SabStore.absent_unstaged (h.absent_same hsame) [source]) with
    ⟨hbad, _⟩ | ⟨_, changes, hstore, hnew⟩
  · exact absurd (h.compiles source current hcurrent) hbad
  · rw [SabStore.run_stored (hstart _) hstore]
    refine ⟨Alike.done, ?_⟩
    intro k
    show (SabStore.flush files' (SabStore.unstaged place [source] ++ changes)).get k = files.get k
    rw [SabStore.get_flush_append, hnew, SabStore.get_unstaged_one, hsame]
    by_cases hk : k.source = source
    · rw [if_pos hk]
      rcases k with ⟨key, flavor⟩
      have hkey : key = source := hk
      rw [hkey]
      exact (h.version source current flavor hcurrent).symm
    · rw [if_neg hk, if_neg]
      intro hgone
      rcases hgone with hself | hcompanion
      · exact hk (congrArg EntryKey.source hself)
      · exact hk (Place.source_of_companion hcompanion).1

theorem renameFile_agree (htarget : Plain target) {current : PlaceFile}
    (hcurrent : files.get (EntryKey.ofSource source) = some current)
    (hprepared : (place.prepared source).isSome = false) (hne : source ≠ target) :
    Agree place (MapStore.renameFile place files source target current)
      (SabStore.run place files' env (Mutation.rename source target false)) := by
  have hcurrent' : files'.get (EntryKey.ofSource source) = some current :=
    (hsame _).trans hcurrent
  have hcheck := hsame.checkHierarchy h.wellFormed h' htarget (place.failRename source target)
  have hinput := hp.input target current.data Syscall.rename current.stat.mtimeMs
  unfold MapStore.renameFile
  cases hhierarchy : Place.checkHierarchy files target (place.failRename source target) [] with
  | error refusal =>
      have hstart : forall locked, SabStore.start place files' [] locked env.now
          (Mutation.rename source target false) = Except.error refusal := by
        intro locked
        show SabStore.rename place files' [] locked source target false = _
        unfold SabStore.rename SabStore.create
        rw [hcurrent']
        simp only [Bool.false_eq_true, if_false, hprepared, hcheck, hhierarchy]
        rfl
      rw [SabStore.run_refused (hstart _)]
      exact Agree.unchanged hsame _
  | ok _ =>
      have hstart : forall locked, SabStore.start place files' [] locked env.now
          (Mutation.rename source target false) = Except.ok (SabStore.Plan.publish target
            (MapStore.input place target current.data Syscall.rename current.stat.mtimeMs).2
            [source]) := by
        intro locked
        rw [← hinput]
        exact SabStore.rename_publish_of hcurrent' rfl hprepared (hcheck.trans hhierarchy)
      have hwritten : Same files (MapStore.overwrite files source current current.data) :=
        MapStore.get_overwrite_same hcurrent
      dsimp only
      rw [MapStore.input_tidy hp.tidy]
      cases hfile : (MapStore.input place target current.data Syscall.rename
          current.stat.mtimeMs).2 with
      | error refusal =>
          rw [hfile] at hstart
          rw [SabStore.run_unprepared (hstart _)]
          exact ⟨Alike.same _, fun k => (hsame k).trans (hwritten k).symm⟩
      | ok file =>
          rw [hfile] at hstart
          dsimp only
          rcases MapStore.publish_cases (h.derived.same hwritten) file with
            ⟨hbad, hpublish⟩ | ⟨hgood, new, hpublish, hnew⟩
          · rcases SabStore.storeShared_cases hp.uncompressed hroomy file
              (SabStore.absent_unstaged (h.absent_same hsame) [source]) with
              ⟨_, hstore⟩ | ⟨hgood, _⟩
            · rw [hpublish, SabStore.run_unstored (hstart _) hstore]
              exact ⟨Alike.uncompiled target, fun k => (hsame k).trans (hwritten k).symm⟩
            · exact absurd hgood hbad
          · rcases SabStore.storeShared_cases hp.uncompressed hroomy file
              (SabStore.absent_unstaged (h.absent_same hsame) [source]) with
              ⟨hbad, _⟩ | ⟨_, changes, hstore, hnew'⟩
            · exact absurd hgood hbad
            · rw [hpublish, SabStore.run_stored (hstart _) hstore]
              refine ⟨Alike.done, ?_⟩
              intro k
              show (SabStore.flush files' (SabStore.unstaged place [source] ++ changes)).get k =
                (MapStore.remove place new source).get k
              rw [SabStore.get_flush_append, hnew', MapStore.get_remove, hnew,
                SabStore.get_unstaged_one, hsame, hwritten]
              by_cases hk : k.source = target
              · rw [if_pos hk, if_pos hk, if_neg]
                intro hgone
                rcases hgone with hself | hcompanion
                · rw [hself] at hk
                  exact hne hk
                · exact hne ((Place.source_of_companion hcompanion).1.symm.trans hk)
              · rw [if_neg hk, if_neg hk]

theorem rename_agree (hsource : Plain source) (htarget : Plain target) (directory : Bool) :
    Agree place (MapStore.run place files env.now (Mutation.rename source target directory))
      (SabStore.run place files' env (Mutation.rename source target directory)) := by
  cases hcurrent : files.get (EntryKey.ofSource source) with
  | none =>
      have hfile : files.hasSource source = false := hasSource_eq_false.mpr hcurrent
      have hcurrent' : files'.get (EntryKey.ofSource source) = none := (hsame _).trans hcurrent
      cases hdirectory : files.isDirectory source with
      | true => exact rename_tree_agree hroomy h h' hsame hsource htarget hfile hdirectory directory
      | false =>
          have hdirectory' : files'.isDirectory source = false :=
            (hsame.isDirectory h.wellFormed h' hsource).trans hdirectory
          have hstart : forall locked, SabStore.start place files' [] locked env.now
              (Mutation.rename source target directory) =
                if (place.prepared source).isSome then
                  Except.error (place.failRename source target ErrorCode.enotsup
                    (some "prepared source"))
                else Except.error (place.failRename source target ErrorCode.enoent none) := by
            intro locked
            show SabStore.rename place files' [] locked source target directory = _
            unfold SabStore.rename
            rw [hcurrent', hdirectory']
            simp only [Bool.false_eq_true, and_false, if_false]
          show Agree place (MapStore.rename place files source target directory) _
          unfold MapStore.rename
          rw [hcurrent, hdirectory]
          dsimp only
          rw [if_neg Bool.false_ne_true]
          cases hprepared : (place.prepared source).isSome with
          | true =>
              rw [hprepared] at hstart
              rw [SabStore.run_refused (hstart _)]
              exact Agree.unchanged hsame _
          | false =>
              rw [hprepared] at hstart
              rw [SabStore.run_refused (hstart _)]
              exact Agree.unchanged hsame _
  | some current =>
      have hcurrent' : files'.get (EntryKey.ofSource source) = some current :=
        (hsame _).trans hcurrent
      have hstart : forall locked refusal, (directory = true ∧
            refusal = place.failRename source target ErrorCode.enotdir none ∨
          directory = false ∧ (place.prepared source).isSome = true ∧
            refusal = place.failRename source target ErrorCode.enotsup (some "prepared source")) ->
          SabStore.start place files' [] locked env.now
            (Mutation.rename source target directory) = Except.error refusal := by
        intro locked refusal hwhy
        show SabStore.rename place files' [] locked source target directory = _
        unfold SabStore.rename
        rw [hcurrent']
        rcases hwhy with ⟨hdirectory, heq⟩ | ⟨hdirectory, hprepared, heq⟩
        · rw [hdirectory, heq]
          rfl
        · rw [hdirectory, hprepared, heq]
          rfl
      show Agree place (MapStore.rename place files source target directory) _
      unfold MapStore.rename
      rw [hcurrent]
      dsimp only
      cases directory with
      | true =>
          rw [SabStore.run_refused (hstart _ _ (Or.inl ⟨rfl, rfl⟩))]
          exact Agree.unchanged hsame _
      | false =>
          rw [if_neg Bool.false_ne_true]
          cases hprepared : (place.prepared source).isSome with
          | true =>
              rw [SabStore.run_refused (hstart _ _ (Or.inr ⟨rfl, hprepared, rfl⟩))]
              exact Agree.unchanged hsame _
          | false =>
              rw [if_neg Bool.false_ne_true]
              by_cases heq : source = target
              · rw [if_pos heq, ← heq]
                exact rename_self_agree hp hroomy h h' hsame hsource hcurrent
                  (Option.isNone_iff_eq_none.mp (Option.isSome_eq_false_iff.mp hprepared))
              · rw [if_neg heq]
                exact renameFile_agree hp hroomy h h' hsame htarget hcurrent hprepared heq

/-- One mutation ends alike in both stores and leaves the same behind. -/
theorem run_agree {op : Mutation} (hop : op.Canonical) :
    Agree place (MapStore.run place files env.now op) (SabStore.run place files' env op) := by
  have hplain : forall key, key ∈ op.keys -> Plain key :=
    fun key hkey => canonicalKey_plain (hop key hkey)
  cases op with
  | write key data exclusive =>
      exact write_agree hp hroomy h hsame h' (hplain key (by simp [Mutation.keys])) data exclusive
  | append key data =>
      exact append_agree hp hroomy h hsame h' (hplain key (by simp [Mutation.keys])) data
  | unlink key directory =>
      exact unlink_agree h.wellFormed h' hsame (hplain key (by simp [Mutation.keys])) directory
  | mkdir key recursive =>
      exact mkdir_agree h.wellFormed h' hsame (hplain key (by simp [Mutation.keys])) recursive
  | rm key directory force recursive =>
      exact rm_agree h.wellFormed h' hsame (hplain key (by simp [Mutation.keys])) directory force
        recursive
  | rename source target directory =>
      exact rename_agree hp hroomy h h' hsame (hplain source (by simp [Mutation.keys]))
        (hplain target (by simp [Mutation.keys])) directory

end

/-!
# Sequences of mutations
-/

theorem Complete.congr (h : Complete place files) (hsame : Same files files') :
    Complete place files' := by
  constructor
  · intro key file flavor hget
    rw [hsame] at hget ⊢
    exact h.version key file flavor hget
  · intro key file hget
    rw [hsame] at hget
    exact h.compiles key file hget
  · intro key file hget
    rw [hsame] at hget
    exact h.plainly key file hget

theorem Complete.holds {new : Files} (h : Complete place files) {file : PlaceFile}
    (hfile : Plainly place key file) (hcompiles : place.Compiles key file)
    (hnew : Holds place key file files new) : Complete place new := by
  have hother : forall {other : Key}, other ≠ key -> forall flavor,
      new.get ⟨other, flavor⟩ = files.get ⟨other, flavor⟩ :=
    fun hne flavor => (hnew _).trans (if_neg hne)
  have hself : forall flavor, new.get ⟨key, flavor⟩ = place.versionOf key file flavor :=
    fun flavor => (hnew _).trans (if_pos rfl)
  constructor
  · intro other found flavor hget
    by_cases hkey : other = key
    · rw [hkey] at hget ⊢
      have hfound : some file = some found := (hself none).symm.trans hget
      rw [hself, Option.some.inj hfound]
    · rw [hother hkey]
      exact h.version other found flavor ((hother hkey none).symm.trans hget)
  · intro other found hget
    by_cases hkey : other = key
    · rw [hkey] at hget ⊢
      have hfound : some file = some found := (hself none).symm.trans hget
      rw [← Option.some.inj hfound]
      exact hcompiles
    · exact h.compiles other found ((hother hkey none).symm.trans hget)
  · intro other found hget
    by_cases hkey : other = key
    · rw [hkey] at hget ⊢
      have hfound : some file = some found := (hself none).symm.trans hget
      rw [← Option.some.inj hfound]
      exact hfile
    · exact h.plainly other found ((hother hkey none).symm.trans hget)

theorem Complete.foldl_remove (h : Complete place files) (keys : List Key) :
    Complete place (keys.foldl (MapStore.remove place) files) := by
  have hstays : forall {key : Key} {file : PlaceFile},
      (keys.foldl (MapStore.remove place) files).get (EntryKey.ofSource key) = some file ->
      key ∉ keys ∧ files.get (EntryKey.ofSource key) = some file := by
    intro key file hget
    rw [MapStore.get_foldl_remove] at hget
    split_ifs at hget with hgone
    exact ⟨fun hkey => hgone ⟨key, hkey, Or.inl rfl⟩, hget⟩
  constructor
  · intro key file flavor hget
    rcases hstays hget with ⟨hkey, hfile⟩
    rw [MapStore.get_foldl_remove, if_neg]
    · exact h.version key file flavor hfile
    · intro hgone
      rcases hgone with ⟨gone, hmem, hself | hcompanion⟩
      · have heq : key = gone := congrArg EntryKey.source hself
        exact hkey (heq ▸ hmem)
      · have heq : key = gone := (Place.source_of_companion hcompanion).1
        exact hkey (heq ▸ hmem)
  · exact fun key file hget => h.compiles key file (hstays hget).2
  · exact fun key file hget => h.plainly key file (hstays hget).2

theorem Complete.rekeyed (hnames : NameExt place.fileExt) (h : Whole place files)
    {moves : List (EntryKey × EntryKey)} (hmovable : place.Movable files source target moves)
    {new : Files} (hnew : Rekeyed id source target files new) : Complete place new := by
  have hcases : forall {key : Key} {file : PlaceFile},
      new.get (EntryKey.ofSource key) = some file ->
      (exists rest, key = target ++ slash :: rest ∧
        files.get (EntryKey.ofSource (source ++ slash :: rest)) = some file) ∨
      files.get (EntryKey.ofSource key) = some file ∧
        forall flavor, new.get ⟨key, flavor⟩ = files.get ⟨key, flavor⟩ := by
    intro key file hget
    by_cases htarget : Above slash target key
    · rcases htarget with ⟨rest, hrest⟩
      rw [hrest] at hget
      have hinside := (hnew.inside rest none).symm.trans hget
      rw [Option.map_id] at hinside
      exact Or.inl ⟨rest, hrest, hinside⟩
    · by_cases hgone : Above slash source key
      · rcases hgone with ⟨rest, hrest⟩
        rw [hrest] at hget
        cases (hnew.gone rest none).symm.trans hget
      · exact Or.inr ⟨(hnew.kept key none hgone htarget).symm.trans hget,
          fun flavor => hnew.kept key flavor hgone htarget⟩
  have huncompiled : forall {rest : Key} {file : PlaceFile},
      files.get (EntryKey.ofSource (source ++ slash :: rest)) = some file ->
      place.bytecodeDomains (source ++ slash :: rest) = [] ∧
        place.bytecodeDomains (target ++ slash :: rest) = [] := by
    intro rest file hfile
    have hdomains := (Place.immovable_none
      (hmovable.movable _ (hasSource_iff.mpr ⟨file, hfile⟩) ⟨rest, rfl⟩)).1
    exact ⟨hdomains, (Place.policies_rekey hnames rest).2.2.trans hdomains⟩
  constructor
  · intro key file flavor hget
    rcases hcases hget with ⟨rest, hkey, hfile⟩ | ⟨hfile, hsame⟩
    · rcases huncompiled hfile with ⟨hold, hnone⟩
      rw [hkey, hnew.inside, Option.map_id, id_eq, h.version _ file flavor hfile]
      cases flavor with
      | none => rfl
      | some flavor =>
          cases flavor with
          | compressed encoding => rfl
          | bytecode domain =>
              dsimp only [Place.versionOf, Place.companionOf]
              rw [hold, hnone]
              rfl
    · rw [hsame]
      exact h.version key file flavor hfile
  · intro key file hget hscript
    rcases hcases hget with ⟨rest, hkey, hfile⟩ | ⟨hfile, _⟩
    · rw [hkey, (huncompiled hfile).2] at hscript
      cases hscript
    · exact h.compiles key file hfile hscript
  · intro key file hget
    rcases hcases hget with ⟨rest, hkey, hfile⟩ | ⟨hfile, _⟩
    · have hplain := h.plainly _ file hfile
      rw [hkey]
      constructor
      · exact hplain.stat
      · intro hprepared
        apply hplain.bare
        exact (Place.policies_rekey hnames rest).2.1.symm.trans hprepared
    · exact h.plainly key file hfile

theorem Complete.effect (hp : Portable place) (h : Whole place files)
    {outcome : Files × Except Refusal Unit} (heffect : MapStore.Effect place files outcome) :
    Complete place outcome.1 := by
  have hcomplete := h.toComplete
  cases heffect with
  | unchanged result => exact hcomplete
  | removed keys => exact hcomplete.foldl_remove keys
  | published key raw syscall mtimeMs file new hinput hpublish =>
      rcases MapStore.publish_cases h.derived file with ⟨_, hfailed⟩ | ⟨hgood, new', hok, hnew⟩
      · cases hpublish.symm.trans hfailed
      · cases hpublish.symm.trans hok
        exact hcomplete.holds (MapStore.input_plainly hinput) hgood hnew
  | refused source target current refusal hcurrent hne =>
      rw [MapStore.input_tidy hp.tidy]
      exact hcomplete.congr (MapStore.get_overwrite_same hcurrent)
  | renamed source target current file new hcurrent hne hinput hpublish =>
      rw [MapStore.input_tidy hp.tidy] at hpublish
      have hwritten : Same files (MapStore.overwrite files source current current.data) :=
        MapStore.get_overwrite_same hcurrent
      rcases MapStore.publish_cases (h.derived.same hwritten) file with
        ⟨_, hfailed⟩ | ⟨hgood, new', hok, hnew⟩
      · cases hpublish.symm.trans hfailed
      · cases hpublish.symm.trans hok
        exact ((hcomplete.congr hwritten).holds (MapStore.input_plainly hinput) hgood
          hnew).foldl_remove [source]
  | moved source target moves hsource htarget hmoves =>
      rcases Place.subtreeMoves_ok h.wellFormed hsource htarget hmoves with ⟨_, hnil⟩ | hmovable
      · rw [hnil]
        exact hcomplete
      · rcases Place.subtreeMoves_inhabited h.wellFormed hsource hmoves with ⟨key, hkey, hbelow⟩
        exact Complete.rekeyed hp.names h hmovable (MapStore.moveTree_rekeyed hmovable h.derived
          (hmovable.apart hkey hbelow))

theorem Whole.run (hp : Portable place) (h : Whole place files) (now : Nat) {op : Mutation}
    (hop : op.Canonical) : Whole place (MapStore.run place files now op).1 where
  toKept := MapStore.Kept.run h.toKept now hop
  derived := MapStore.Derived.run h.derived h.wellFormed now hop
  toComplete := Complete.effect hp h (MapStore.run_effect now hop)

theorem Whole.empty : Whole place PlaceFiles.empty where
  toKept := MapStore.Kept.empty
  derived := Derived.empty
  version := fun key file flavor hget => by cases hget
  compiles := fun key file hget => by cases hget
  plainly := fun key file hget => by cases hget

theorem SabStore.run_wellFormed (h : files.WellFormed) (env : Env) {op : Mutation}
    (hop : op.Canonical) : (SabStore.run place files env op).1.WellFormed := by
  have hrooted : forall {key : Key}, key ∈ op.keys -> exists rest, key = slash :: rest :=
    fun hkey => (canonicalKey_plain (hop _ hkey)).1
  cases hstart : start place files [] (locksOf files op).isSome env.now op with
  | error refusal =>
      rw [run_refused hstart]
      exact h
  | ok plan =>
      cases plan with
      | now changes =>
          rcases start_now hstart with ⟨keys, hchanges, _⟩
          rw [run_now hstart, hchanges]
          apply WellFormed.flush h
          intro change hchange hsome
          exact absurd (mem_unstaged.mp hchange).1 hsome
      | publish target input removed =>
          rcases start_publish h.indexed hop hstart with ⟨htarget, hremoved, _⟩
          cases input with
          | error refusal =>
              rw [run_unprepared hstart]
              exact h
          | ok file =>
              cases hstore : storeShared place target file env with
              | error refusal =>
                  rw [run_unstored hstart hstore]
                  exact h
              | ok changes =>
                  rw [run_stored hstart hstore]
                  apply WellFormed.flush h
                  intro change hchange _
                  rcases publication_source hstore hchange with heq | hmem
                  · rw [heq]
                    exact hrooted htarget
                  · exact hrooted (hremoved _ hmem)
      | move moves =>
          rcases start_move hstart with ⟨_, source, target, directory, heq, hmoves⟩
          have hsource : Plain source := canonicalKey_plain (hop _ (by rw [heq]; simp [Mutation.keys]))
          have htarget : Plain target := canonicalKey_plain (hop _ (by rw [heq]; simp [Mutation.keys]))
          cases hcopies : copiesOf files env moves with
          | error refusal =>
              rw [run_uncopied hstart hcopies]
              exact h
          | ok copies =>
              rw [run_moved hstart hcopies]
              rcases Place.subtreeMoves_ok h hsource htarget hmoves with ⟨_, hnil⟩ | hmovable
              · rw [copiesOf_eq hcopies, hnil]
                exact h
              · exact tree_wellFormed h htarget hmovable hcopies

/-- A mutation, and what its environment decides. -/
structure Attempt where
  env : Env
  op : Mutation

/-- Mutations awaited one by one. -/
def MapStore.runAll (place : Place) (files : Files) :
    List Attempt -> Files × List (Except Refusal Unit)
  | [] => (files, [])
  | attempt :: rest =>
      let first := MapStore.run place files attempt.env.now attempt.op
      let more := MapStore.runAll place first.1 rest
      (more.1, first.2 :: more.2)

def SabStore.runAll (place : Place) (files : Files) :
    List Attempt -> Files × List (Except Refusal Unit)
  | [] => (files, [])
  | attempt :: rest =>
      let first := SabStore.run place files attempt.env attempt.op
      let more := SabStore.runAll place first.1 rest
      (more.1, first.2 :: more.2)

theorem runAll_agree (hp : Portable place) (h : Whole place files) (h' : files'.WellFormed)
    (hsame : Same files files') (attempts : List Attempt)
    (hattempts : forall attempt, attempt ∈ attempts -> attempt.op.Canonical ∧ attempt.env.Roomy) :
    List.Forall₂ (Alike place) (MapStore.runAll place files attempts).2
        (SabStore.runAll place files' attempts).2 ∧
      Same (MapStore.runAll place files attempts).1 (SabStore.runAll place files' attempts).1 := by
  induction attempts generalizing files files' with
  | nil => exact ⟨List.Forall₂.nil, hsame⟩
  | cons attempt rest ih =>
      rcases hattempts attempt List.mem_cons_self with ⟨hop, hroomy⟩
      rcases run_agree hp hroomy h h' hsame hop with ⟨hresult, hfiles⟩
      rcases ih (h.run hp attempt.env.now hop) (SabStore.run_wellFormed h' attempt.env hop) hfiles
        (fun c hc => hattempts c (List.mem_cons_of_mem attempt hc)) with ⟨hresults, hlast⟩
      exact ⟨List.Forall₂.cons hresult hresults, hlast⟩

/-- A replay that succeeds is a run whose mutations all succeed. -/
theorem runAll_replay {log : List Committed} (h : replay place files log = Except.ok files') :
    SabStore.runAll place files (log.map (fun c => ⟨c.env, c.op⟩)) =
      (files', log.map (fun _ => Except.ok ())) := by
  induction log generalizing files with
  | nil =>
      rw [replay, Except.ok.injEq] at h
      rw [h]
      rfl
  | cons c rest ih =>
      unfold replay at h
      rcases hrun : SabStore.run place files c.env c.op with ⟨next, refusal | _⟩
      · rw [hrun] at h
        cases h
      · rw [hrun] at h
        simp only [List.map_cons, SabStore.runAll, hrun, ih h]

theorem portable_demo : Portable SabPlace.demoPlace where
  uncompressed := rfl
  bound := by
    intro key name hprepared
    cases hprepared
  tidy := by
    intro name preparer hname
    cases hname
  names := fun _ _ _ => rfl

end SharedMemoryFs
