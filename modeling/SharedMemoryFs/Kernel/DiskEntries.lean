import SharedMemoryFs.Config.Policies
import SharedMemoryFs.Config.Selection
import SharedMemoryFs.Kernel.Publication
import SharedMemoryFs.Lifecycle.Kernel

/-!
# Disk entries

A source that is not in shared memory is read from the path of its entry, so such an
entry must stand for the canonical content of its key.  The guarantee is put together
from the config, from what the callers hand to a publication, from the preparation of
its input and from the options of its allocation.
-/

namespace SharedMemoryFs

open Foundation

/-!
# Places of an accepted config
-/

/-- What {lit}`retainRaw: false` is accepted with. -/
structure KeepsOnDisk (place : Config.Place) : Prop where
  provider : place.provider = Provider.sab
  origin : place.origin = some Origin.disk
  compile : Config.compiles place = false
  script : place.script = none
  prepare : place.prepare = none

namespace Config

/-- The source of a compressed file is not kept in memory. -/
def Place.discardsRaw (place : Place) : Bool :=
  place.fs.any (fun fs => fs.compress.any (fun compress => !compress.retainRaw))

theorem validateRetainRaw_ok {place : Place} {field : String}
    (h : validateRetainRaw place field = Except.ok ()) : KeepsOnDisk place := by
  rcases bind_ok.mp h with ⟨_, hprovider, h⟩
  rcases bind_ok.mp h with ⟨_, horigin, h⟩
  rcases bind_ok.mp h with ⟨_, hcompile, h⟩
  rcases bind_ok.mp h with ⟨_, hscript, hprepare⟩
  exact
    { provider := beq_iff_eq.mp (ensure_ok.mp hprovider)
      origin := beq_iff_eq.mp (ensure_ok.mp horigin)
      compile := by simpa using ensure_ok.mp hcompile
      script := Option.isNone_iff_eq_none.mp (ensure_ok.mp hscript)
      prepare := Option.isNone_iff_eq_none.mp (ensure_ok.mp hprepare) }

theorem validateFs_ok {place : Place} {fs : FsDomain} {field : String}
    (h : validateFs place fs field = Except.ok ())
    (hraw : fs.compress.any (fun compress => !compress.retainRaw) = true) : KeepsOnDisk place := by
  unfold validateFs at h
  split at h
  · have hnone := ensure_ok.mp h
    simp only [Bool.and_eq_true] at hnone
    rw [Option.isNone_iff_eq_none.mp hnone.1.2] at hraw
    cases hraw
  · rcases bind_ok.mp h with ⟨_, _, h⟩
    rcases bind_ok.mp h with ⟨_, _, h⟩
    rcases bind_ok.mp h with ⟨_, _, h⟩
    exact validateRetainRaw_ok h

theorem validatePlace_ok {place : Place} {global : Global}
    (h : validatePlace place global = Except.ok ()) (hraw : place.discardsRaw = true) :
    KeepsOnDisk place := by
  unfold validatePlace at h
  rcases bind_ok.mp h with ⟨_, _, h⟩
  rcases bind_ok.mp h with ⟨_, _, h⟩
  rcases bind_ok.mp h with ⟨_, _, h⟩
  have hfs : exists fs, place.fs = some fs ∧
      fs.compress.any (fun compress => !compress.retainRaw) = true := by
    unfold Place.discardsRaw at hraw
    cases hfs : place.fs with
    | none =>
        rw [hfs] at hraw
        cases hraw
    | some fs =>
        rw [hfs] at hraw
        exact ⟨fs, rfl, hraw⟩
  rcases hfs with ⟨fs, hfs, hraw⟩
  dsimp only at h
  split at h
  · rcases bind_ok.mp h with ⟨_, _, h⟩
    rcases bind_ok.mp h with ⟨_, _, h⟩
    rw [hfs] at h
    rcases bind_ok.mp h with ⟨_, hvalid, _⟩
    exact validateFs_ok hvalid hraw
  · rcases bind_ok.mp h with ⟨_, _, h⟩
    rcases bind_ok.mp h with ⟨_, _, h⟩
    rw [hfs] at h
    rcases bind_ok.mp h with ⟨_, hvalid, _⟩
    exact validateFs_ok hvalid hraw

/-- In an accepted config only a plain disk-backed place keeps its sources on disk. -/
theorem keepsOnDisk_of_new {sizeToBytes : String -> Number} {raw : Value} {config : VfsConfig}
    (h : VfsConfig.new sizeToBytes raw = Except.ok config) {place : Place}
    (hplace : place ∈ config.places) (hraw : place.discardsRaw = true) : KeepsOnDisk place := by
  rcases new_ok h with ⟨_, _, _, _, hresolved, _, _⟩
  rcases mem_resolvePlaces hresolved hplace with ⟨name, value, _, hone⟩
  rcases resolvePlace_ok hone with ⟨built, hbuilt, hnormalized⟩
  rcases normalizeFallback_ok hnormalized with ⟨fallback, heq⟩
  have hsame : built.discardsRaw = true := by
    rw [heq] at hraw
    unfold Place.discardsRaw at hraw ⊢
    cases hfs : built.fs with
    | none =>
        rw [hfs] at hraw
        cases hraw
    | some fs =>
        rw [hfs] at hraw
        exact hraw
  have hkeeps := validatePlace_ok hbuilt.valid hsame
  have hscript : place.script = built.script := by
    rw [heq]
    unfold Place.script
    cases built.fs <;> rfl
  rw [heq]
  exact
    { provider := hkeeps.provider
      origin := hkeeps.origin
      compile := hkeeps.compile
      script := by
        rw [← heq, hscript]
        exact hkeeps.script
      prepare := hkeeps.prepare }

end Config

/-!
# Inputs
-/

/-- A place of a config as {lit}`initialize` registers it: every preparer it names is
bound. -/
structure Installed where
  config : Config.Place
  place : Place
  published : place.config = config.published
  bound : place.Bound

namespace Installed

variable (installed : Installed)

def hosted : HostedPlace :=
  { place := installed.place
    provider := installed.config.provider
    virtual := installed.config.origin == some Origin.virtual
    scanExt := installed.config.scanExt }

/-- {lit}`#originOf` scans the directory of the place, and the watcher follows it. -/
def scanned : Bool :=
  installed.config.provider.indexed && installed.config.provider != Provider.sea &&
    installed.config.origin != some Origin.virtual

/-- {lit}`#storeOf` gives the place the allocator of the main kernel. -/
def mutable : Bool :=
  installed.config.provider == Provider.sab && installed.config.origin == some Origin.virtual

/-- What the callers of {lit}`#publishEntry` hand to it under a key: a file of a scan or
of {lit}`#refresh`, at the path the key was cut from; an asset; or the bytes of a virtual
write or move. -/
inductive Raw : Key -> FileInput -> Prop where
  | found (names : List PosixPath.Text) (stat : Stat) :
      installed.scanned = true -> (forall name, name ∈ names -> name ≠ []) ->
      Raw (PosixPath.text names)
        { data := none
          path := some (installed.place.root ++ String.ofList (PosixPath.text names))
          stat := stat }
  | asset (key : Key) (data : Bytes) (mtimeMs : Nat) :
      installed.config.provider = Provider.sea ->
      Raw key { data := some data, path := none, stat := { size := data.length, mtimeMs := mtimeMs } }
  | written (key : Key) (data : Bytes) (mtimeMs : Nat) :
      installed.mutable = true ->
      Raw key { data := some data, path := none, stat := { size := data.length, mtimeMs := mtimeMs } }

variable {installed : Installed}

/-- The path a file was found at is the path of its key. -/
theorem pathOf_text (place : Place) {names : List PosixPath.Text}
    (h : forall name, name ∈ names -> name ≠ []) :
    place.root ++ String.ofList (PosixPath.text names) = place.pathOf (PosixPath.text names) := by
  unfold Place.pathOf
  cases names with
  | nil =>
      show place.root ++ "" = place.root
      exact String.append_empty
  | cons name rest =>
      cases hname : name with
      | nil => exact absurd hname (h name List.mem_cons_self)
      | cons c cs =>
          rw [if_neg]
          intro hkey
          cases hkey with
          | inl hnil => cases hnil
          | inr hslash => cases hslash

/-- Only a file that was found has a path, and it is that of its key. -/
theorem Raw.path {key : Key} {file : FileInput} (h : installed.Raw key file) {path : String}
    (hpath : file.path = some path) :
    installed.scanned = true ∧ path = installed.place.pathOf key := by
  cases h with
  | found names stat hscanned hnames =>
      rw [← Option.some.inj hpath]
      exact ⟨hscanned, pathOf_text installed.place hnames⟩
  | asset => cases hpath
  | written => cases hpath

/-- A place that keeps its sources on disk publishes what was found there. -/
theorem Raw.path_of_keepsOnDisk {key : Key} {file : FileInput} (h : installed.Raw key file)
    (hkeeps : KeepsOnDisk installed.config) : file.path.isSome = true := by
  cases h with
  | found => rfl
  | asset _ _ _ hsea =>
      rw [hkeeps.provider] at hsea
      cases hsea
  | written _ _ _ hmutable =>
      unfold mutable at hmutable
      rw [hkeeps.origin, Bool.and_eq_true] at hmutable
      cases hmutable.2

end Installed

namespace Lifecycle

open Async in
/-- An input that still has a path went through no preparer, and is what was found. -/
theorem input_path {hosted : HostedPlace} {key : Key} {file canonical : FileInput}
    (h : Returns (input hosted key file) canonical) (hpath : canonical.path.isSome = true) :
    hosted.place.preparerOf key = none ∧ canonical = file := by
  unfold input at h
  split at h
  next preparer hpreparer =>
    rcases returns_bind h with ⟨raw, _, hprepared⟩
    exfalso
    unfold prepareInput at hprepared
    split at hprepared
    · cases hprepared
    · cases hprepared
      cases hpath
  next hnone =>
    split at h
    · rcases returns_bind h with ⟨raw, _, hraw⟩
      cases hraw
      cases hpath
    · cases h
      exact ⟨hnone, rfl⟩

theorem input_plain {hosted : HostedPlace} {key : Key} {file : FileInput}
    (hnone : hosted.place.preparerOf key = none) (hmap : hosted.provider ≠ Provider.map) :
    input hosted key file = Async.done file := by
  unfold input
  rw [hnone]
  exact if_neg hmap

end Lifecycle

/-!
# One publication
-/

/-- The entry stands for the file of the input. -/
def Entry.Of (input : FileInput) (entry : Entry) : Prop :=
  forall path, entry.kind = EntryKind.disk path -> path = input.path ∧ input.path.isSome = true

def Entry.Shared (entry : Entry) : Prop := forall path, entry.kind ≠ EntryKind.disk path

theorem fallbackTo_disk {file : FileInput} {options : AllocOptions} {entry : Entry}
    (h : FilesystemCache.fallbackTo file options = Allocation.settled (some entry)) :
    options.fallback = true ∧ entry = diskEntry file := by
  unfold FilesystemCache.fallbackTo at h
  split at h
  next hfallback =>
    cases h
    exact ⟨hfallback, rfl⟩
  next => cases h

theorem shared_sharedEntry (file : FileInput) (e : Extent) : (sharedEntry file e).Shared := by
  intro path hpath
  cases hpath

/-- A disk entry comes of a fallback, and has the path of its input. -/
theorem allocate_settled {c : FilesystemCache} {file : FileInput} {options : AllocOptions}
    {entry : Entry} (h : (c.allocate file options).2 = Allocation.settled (some entry)) :
    entry.Shared ∨ (options.fallback = true ∧ entry = diskEntry file) := by
  unfold FilesystemCache.allocate at h
  split at h
  · exact Or.inr (fallbackTo_disk h)
  · split at h
    · cases h
    · dsimp only at h
      split at h
      · exact Or.inr (fallbackTo_disk h)
      · split at h
        · cases h
          exact Or.inl (shared_sharedEntry file _)
        · split at h
          · exact Or.inr (fallbackTo_disk h)
          · split at h
            · cases h
              exact Or.inl (shared_sharedEntry file _)
            · cases h

theorem allocate_source {c : FilesystemCache} {fileExt : Key -> Ext} {place : PlaceConfig}
    {key : Key} {input : FileInput} {entry : Entry}
    (h : (c.allocate input (place.allocOptions fileExt key input)).2 =
      Allocation.settled (some entry)) : entry.Of input := by
  intro path hpath
  rcases allocate_settled h with hshared | ⟨hfallback, heq⟩
  · exact absurd hpath (hshared path)
  · rw [heq] at hpath
    cases hpath
    exact ⟨rfl, hfallback⟩

theorem allocate_companion {c : FilesystemCache} {input : FileInput} {entry : Entry}
    (h : (c.allocate input companionAlloc).2 = Allocation.settled (some entry)) :
    entry.Shared := by
  rcases allocate_settled h with hshared | ⟨hfallback, _⟩
  · exact hshared
  · cases hfallback

namespace Store

/-- What one allocated entry of a publication is. -/
def Places (key : Key) (input : FileInput) (allocated : EntryKey × Entry) : Prop :=
  allocated.1.source = key ∧
    ((allocated.1.flavor = none ∧ allocated.2.Of input) ∨
      (allocated.1.flavor ≠ none ∧ allocated.2.Shared))

/-- The entry an allocation has ended with. -/
def Ended (p : Entry -> Prop) (allocation : Allocation) : Prop :=
  forall entry, allocation = Allocation.settled (some entry) -> p entry

/-- What a suspended publication has placed so far, and is about to place. -/
structure Canonical (key : Key) (input : FileInput) (t : Store) : Prop where
  sameKey : t.key = key
  sameInput : t.input = input
  allocated : forall entry, entry ∈ t.allocated -> Places key input entry
  source : forall allocation, t.stage = Stage.source allocation -> Ended (Entry.Of input) allocation
  companion : forall phase entry companion allocation rest,
    t.stage = Stage.companion phase entry companion allocation rest -> Ended Entry.Shared allocation

variable {key : Key} {input : FileInput} {t t' : Store}

theorem canonical_start {fileExt : Key -> Ext} {target : Target} {place : PlaceConfig}
    {c : FilesystemCache} : Canonical key input (start fileExt target place key input c).2 where
  sameKey := rfl
  sameInput := rfl
  allocated := fun _ hentry => absurd hentry List.not_mem_nil
  source := by
    intro allocation hstage entry hended
    cases hstage
    exact allocate_source hended
  companion := by
    intro phase entry companion allocation rest hstage
    cases hstage

theorem canonical_filled {c c' : FilesystemCache} {ok : Bool} {data : Bytes}
    (hcanonical : Canonical key input t) (h : t.filled c ok data = some (c', t')) :
    Canonical key input t' := by
  unfold filled at h
  split at h
  next e hstage =>
    split at h
    · cases h
      refine ⟨hcanonical.sameKey, hcanonical.sameInput, hcanonical.allocated, ?_, ?_⟩
      · intro allocation hnext entry hended path hpath
        cases hnext
        cases hended
        cases hpath
      · intro phase entry companion allocation rest hnext
        cases hnext
    · cases h
      refine ⟨hcanonical.sameKey, hcanonical.sameInput, hcanonical.allocated, ?_, ?_⟩
      · intro allocation hnext entry hended
        cases hnext
        cases hended
      · intro phase entry companion allocation rest hnext
        cases hnext
  next => cases h

/-- Nothing that is placed or dropped on the way is a disk entry of a companion. -/
theorem canonical_companions {phase : Phase} {entry : Entry} {rest : List Companion}
    {c c' : FilesystemCache} (hkey : t.key = key) (hinput : t.input = input)
    (hallocated : forall entry, entry ∈ t.allocated -> Places key input entry)
    (h : companions phase entry t c rest = (c', Progress.suspended t')) :
    Canonical key input t' := by
  induction rest generalizing t with
  | nil =>
      cases h
      refine ⟨hkey, hinput, hallocated, ?_, ?_⟩
      · intro allocation hstage
        cases phase <;> cases hstage
      · intro phase' entry companion allocation rest hstage
        cases phase <;> cases hstage
  | cons companion rest ih =>
      unfold companions at h
      split at h
      next data hdata =>
        cases h
        refine ⟨hkey, hinput, hallocated, ?_, ?_⟩
        · intro allocation hstage
          cases hstage
        · intro phase' entry' companion' allocation rest' hstage entry hended
          cases hstage
          exact allocate_companion hended
      next =>
        split at h
        · cases h
        · refine ih ?_ ?_ ?_ h
          · exact hkey
          · exact hinput
          · exact hallocated

theorem companions_not_done {phase : Phase} {entry : Entry} {rest : List Companion}
    {c c' : FilesystemCache} {changes : List (Slot × Option Entry)}
    (h : companions phase entry t c rest = (c', Progress.done changes)) : False := by
  induction rest generalizing t with
  | nil => cases h
  | cons companion rest ih =>
      unfold companions at h
      split at h
      · cases h
      · split at h
        · cases h
        · exact ih h

theorem places_add {entry : EntryKey × Entry} (hentry : Places key input entry)
    (hallocated : forall other, other ∈ t.allocated -> Places key input other) :
    forall other, other ∈ t.allocated ++ [entry] -> Places key input other := by
  intro other hother
  cases List.mem_append.mp hother with
  | inl hbefore => exact hallocated other hbefore
  | inr hlast =>
      rw [List.mem_singleton.mp hlast]
      exact hentry

theorem canonical_resume {fileExt : Key -> Ext} {c c' : FilesystemCache} {answer : Answer}
    (hcanonical : Canonical key input t)
    (h : t.resume fileExt c answer = some (c', Progress.suspended t')) :
    Canonical key input t' := by
  rcases hcanonical with ⟨hkey, hinput, hallocated, hsource, hcompanion⟩
  unfold resume at h
  split at h
  next entry hstage =>
    cases h
    refine ⟨hkey, hinput, ?_, ?_, ?_⟩
    · exact places_add ⟨hkey, Or.inl ⟨rfl, hsource _ hstage entry rfl⟩⟩ hallocated
    · intro allocation hnext
      dsimp only at hnext
      split at hnext <;> cases hnext
    · intro phase entry companion allocation rest hnext
      dsimp only at hnext
      split at hnext <;> cases hnext
  next => cases h
  next => cases h
  next => cases h
  next entry hstage =>
    split at h
    · cases h
    · exact canonical_companions hkey hinput hallocated (Option.some.inj h)
  next phase entry companion placed rest hstage =>
    refine canonical_companions ?_ ?_ ?_ (Option.some.inj h)
    · exact hkey
    · exact hinput
    · refine places_add ⟨hkey, Or.inr ⟨Option.some_ne_none _, ?_⟩⟩ hallocated
      exact hcompanion _ _ _ _ _ hstage placed rfl
  next phase entry companion rest hstage =>
    split at h
    · cases h
    · refine canonical_companions ?_ ?_ ?_ (Option.some.inj h)
      · exact hkey
      · exact hinput
      · exact hallocated
  next => cases h
  next => cases h
  next entry hstage =>
    cases h
    refine ⟨hkey, hinput, hallocated, ?_, ?_⟩
    · intro allocation hnext
      dsimp only at hnext
      split at hnext <;> cases hnext
    · intro phase entry companion allocation rest hnext
      dsimp only at hnext
      split at hnext <;> cases hnext
  next entry hstage =>
    split at h
    · cases h
      refine ⟨hkey, hinput, hallocated, ?_, ?_⟩
      · intro allocation hnext
        cases hnext
      · intro phase entry companion allocation rest hnext
        cases hnext
    · exact canonical_companions hkey hinput hallocated (Option.some.inj h)
  next entry source hstage =>
    exact canonical_companions hkey hinput hallocated (Option.some.inj h)
  next => cases h

/-- What is staged at the end. -/
theorem staged_of_canonical {fileExt : Key -> Ext} {c c' : FilesystemCache} {answer : Answer}
    {changes : List (Slot × Option Entry)} (hcanonical : Canonical key input t)
    (h : t.resume fileExt c answer = some (c', Progress.done changes)) {slot : Slot} {entry : Entry}
    (hmem : (slot, some entry) ∈ changes) : Places key input (slot.key, entry) := by
  have hdone : changes = t.changes := by
    unfold resume at h
    split at h
    next => cases h
    next => cases h
    next => cases h
    next => cases h
    next =>
      split at h
      · cases h
      · exact (companions_not_done (Option.some.inj h)).elim
    next => exact (companions_not_done (Option.some.inj h)).elim
    next =>
      split at h
      · cases h
      · exact (companions_not_done (Option.some.inj h)).elim
    next => cases h
    next => cases h
    next => cases h
    next =>
      split at h
      · cases h
      · exact (companions_not_done (Option.some.inj h)).elim
    next => exact (companions_not_done (Option.some.inj h)).elim
    next =>
      cases h
      rfl
  rw [hdone] at hmem
  unfold Store.changes at hmem
  cases List.mem_append.mp hmem with
  | inl hplaced =>
      rcases List.mem_map.mp hplaced with ⟨allocated, hallocated, heq⟩
      cases heq
      exact hcanonical.allocated _ hallocated
  | inr hdropped =>
      rcases List.mem_map.mp hdropped with ⟨dropped, _, heq⟩
      cases heq

/-!
# Publications that cannot fail
-/

/-- A companion that may be missing, and whose data has the length it says. -/
def Optional (companion : Companion) : Prop :=
  companion.required = false ∧
    forall data, companion.data = some data -> data.length = companion.stat.size

/-- Where a publication is that keeps its source on disk. -/
def Settled : Stage -> Prop
  | Stage.source allocation => exists entry, allocation = Allocation.settled (some entry)
  | Stage.bytecodeBytes _ => False
  | Stage.companion _ _ companion allocation rest =>
      Optional companion ∧ allocation ≠ Allocation.rejected ∧
        forall other, other ∈ rest -> Optional other
  | _ => True

theorem allocate_not_rejected {c : FilesystemCache} {data : Bytes} {stat : Stat}
    {options : AllocOptions} (h : data.length = stat.size) :
    (c.allocate { data := some data, path := none, stat := stat } options).2 ≠
      Allocation.rejected := by
  unfold FilesystemCache.allocate FilesystemCache.fallbackTo
  split
  · exact fun heq => by cases heq
  · split
    next hsize =>
      rw [Option.any_some, bne_iff_ne] at hsize
      exact absurd h hsize
    next =>
      dsimp only
      split
      · exact fun heq => by cases heq
      · split
        · exact fun heq => by cases heq
        · split
          · exact fun heq => by cases heq
          · exact fun heq => by cases heq

theorem optional_encoded (entry : Entry) (encode : Encoding -> Option Bytes) (codec : Codec) :
    Optional (encodedCompanion entry encode codec) := by
  refine ⟨rfl, ?_⟩
  intro data hdata
  show data.length = ((encode codec.encoding).map List.length).getD 0
  rw [show encode codec.encoding = some data from hdata]
  rfl

/-- The loop over companions that may be missing ends in a suspension. -/
theorem companions_settled {phase : Phase} {entry : Entry} {rest : List Companion}
    {c : FilesystemCache} (h : forall companion, companion ∈ rest -> Optional companion) :
    exists c' t', companions phase entry t c rest = (c', Progress.suspended t') ∧
      t'.place = t.place ∧ t'.key = t.key ∧ Settled t'.stage := by
  induction rest generalizing t with
  | nil =>
      refine ⟨_, _, rfl, rfl, rfl, ?_⟩
      cases phase <;> trivial
  | cons companion rest ih =>
      have hfirst := h companion List.mem_cons_self
      have hrest := fun other hother => h other (List.mem_cons_of_mem _ hother)
      unfold companions
      split
      next data hdata =>
        exact ⟨_, _, rfl, rfl, rfl, hfirst, allocate_not_rejected (hfirst.2 data hdata), hrest⟩
      next =>
        rw [hfirst.1, if_neg Bool.false_ne_true]
        rcases @ih { t with dropped := t.dropped ++ [⟨t.key, some companion.flavor⟩] } hrest with
          ⟨c', t', heq, hplace, hkey, hsettled⟩
        exact ⟨c', t', heq, hplace, hkey, hsettled⟩

/-- Kept on disk, and not compiled. -/
structure Untroubled (fileExt : Key -> Ext) (t : Store) : Prop where
  plain : t.place.bytecodeDomains fileExt t.key = []
  settled : Settled t.stage

theorem untroubled_companions {fileExt : Key -> Ext} {phase : Phase} {entry : Entry}
    {rest : List Companion} {c c' : FilesystemCache} {progress : Progress Store}
    (hplain : t.place.bytecodeDomains fileExt t.key = [])
    (hrest : forall companion, companion ∈ rest -> Optional companion)
    (h : companions phase entry t c rest = (c', progress)) :
    exists next, progress = Progress.suspended next ∧ Untroubled fileExt next := by
  rcases @companions_settled t phase entry rest c hrest with
    ⟨c'', next, heq, hplace, hkey, hsettled⟩
  rw [heq] at h
  cases h
  exact ⟨next, rfl, by rw [hplace, hkey]; exact hplain, hsettled⟩

/-- A publication that keeps its source on disk goes on to its end. -/
theorem untroubled_resume {fileExt : Key -> Ext} {c c' : FilesystemCache} {answer : Answer}
    {progress : Progress Store} (hu : Untroubled fileExt t)
    (h : t.resume fileExt c answer = some (c', progress)) :
    (exists next, progress = Progress.suspended next ∧ Untroubled fileExt next) ∨
      progress = Progress.done t.changes := by
  rcases hu with ⟨hplain, hsettled⟩
  unfold resume at h
  split at h
  next entry hstage =>
    cases h
    refine Or.inl ⟨_, rfl, hplain, ?_⟩
    show Settled (if t.place.bytecodeDomains fileExt t.key = [] then _ else _)
    rw [if_pos hplain]
    trivial
  next hstage =>
    rw [hstage] at hsettled
    rcases hsettled with ⟨entry, hentry⟩
    cases hentry
  next hstage =>
    rw [hstage] at hsettled
    rcases hsettled with ⟨entry, hentry⟩
    cases hentry
  next => cases h
  next hstage =>
    rw [hstage] at hsettled
    exact hsettled.elim
  next phase entry companion placed rest hstage =>
    rw [hstage] at hsettled
    left
    refine untroubled_companions ?_ hsettled.2.2 (Option.some.inj h)
    exact hplain
  next phase entry companion rest hstage =>
    rw [hstage] at hsettled
    rw [hsettled.1.1, if_neg Bool.false_ne_true] at h
    left
    refine untroubled_companions ?_ hsettled.2.2 (Option.some.inj h)
    exact hplain
  next hstage =>
    rw [hstage] at hsettled
    exact absurd rfl hsettled.2.1
  next => cases h
  next entry hstage =>
    cases h
    refine Or.inl ⟨_, rfl, hplain, ?_⟩
    dsimp only
    split
    · trivial
    · trivial
  next entry hstage =>
    split at h
    · cases h
      exact Or.inl ⟨_, rfl, hplain, trivial⟩
    · left
      refine untroubled_companions hplain ?_ (Option.some.inj h)
      intro companion hcompanion
      rcases List.mem_map.mp hcompanion with ⟨codec, _, heq⟩
      rw [← heq]
      exact optional_encoded entry _ codec
  next entry source hstage =>
    left
    refine untroubled_companions hplain ?_ (Option.some.inj h)
    intro companion hcompanion
    rcases List.mem_map.mp hcompanion with ⟨codec, _, heq⟩
    rw [← heq]
    exact optional_encoded entry _ codec
  next =>
    cases h
    exact Or.inr rfl

theorem untroubled_filled {fileExt : Key -> Ext} {c c' : FilesystemCache} {ok : Bool}
    {data : Bytes} (hu : Untroubled fileExt t) (h : t.filled c ok data = some (c', t')) :
    Untroubled fileExt t' := by
  unfold filled at h
  split at h
  next e hstage =>
    have hsettled := hu.settled
    rw [hstage] at hsettled
    rcases hsettled with ⟨entry, hentry⟩
    cases hentry
  next => cases h

end Store

/-!
# Any publication
-/

/-- A publication of a key through {lit}`#publishEntry`, at any of its awaits and beside
whatever else happens to the pool.  A map place stores nothing there. -/
inductive Publishing (installed : Installed) (key : Key) (input : FileInput) : Store -> Prop where
  | start (file : FileInput) (target : Target) (c : FilesystemCache) :
      installed.Raw key file ->
      Async.Returns (Lifecycle.input installed.hosted key file) input ->
      installed.config.provider ≠ Provider.map ->
      Publishing installed key input
        (Store.start installed.place.fileExt target installed.place.config key input c).2
  | filled (t t' : Store) (c c' : FilesystemCache) (ok : Bool) (data : Bytes) :
      Publishing installed key input t -> t.filled c ok data = some (c', t') ->
      Publishing installed key input t'
  | resume (t t' : Store) (c c' : FilesystemCache) (answer : Answer) :
      Publishing installed key input t ->
      t.resume installed.place.fileExt c answer = some (c', Progress.suspended t') ->
      Publishing installed key input t'

namespace Publishing

variable {installed : Installed} {key : Key} {input : FileInput} {t : Store}

theorem canonical (h : Publishing installed key input t) : Store.Canonical key input t := by
  induction h with
  | start => exact Store.canonical_start
  | filled t t' c c' ok data _ hfilled ih => exact Store.canonical_filled ih hfilled
  | resume t t' c c' answer _ hresume ih => exact Store.canonical_resume ih hresume

/-- What the publication was started with. -/
theorem origin (h : Publishing installed key input t) :
    installed.config.provider ≠ Provider.map ∧ exists file, installed.Raw key file ∧
      Async.Returns (Lifecycle.input installed.hosted key file) input := by
  induction h with
  | start file target c hraw hinput hmap => exact ⟨hmap, file, hraw, hinput⟩
  | filled _ _ _ _ _ _ _ _ ih => exact ih
  | resume _ _ _ _ _ _ _ ih => exact ih

theorem prepared_of_preparerOf {place : Place} (hbound : place.Bound)
    (h : place.preparerOf key = none) : place.prepared key = none := by
  cases hprepared : place.prepared key with
  | none => rfl
  | some name =>
      have hregistered := hbound key name hprepared
      unfold Place.preparerOf at h
      rw [hprepared] at h
      change place.registered name = none at h
      rw [h] at hregistered
      cases hregistered

/-- An input with a path is a file of a shared place with a directory, as it was found. -/
theorem path_of_input (h : Publishing installed key input t) {path : String}
    (hpath : input.path = some path) :
    installed.config.provider = Provider.sab ∧ installed.config.origin ≠ some Origin.virtual ∧
      installed.place.prepared key = none ∧ path = installed.place.pathOf key := by
  rcases h.origin with ⟨hmap, file, hraw, hinput⟩
  have hsome : input.path.isSome = true := by
    rw [hpath]
    rfl
  rcases Lifecycle.input_path hinput hsome with ⟨hnone, hsame⟩
  rw [hsame] at hpath
  rcases hraw.path hpath with ⟨hscanned, hpathOf⟩
  unfold Installed.scanned at hscanned
  rw [Bool.and_eq_true, Bool.and_eq_true, bne_iff_ne, bne_iff_ne] at hscanned
  refine ⟨?_, hscanned.2, prepared_of_preparerOf installed.bound hnone, hpathOf⟩
  cases hprovider : installed.config.provider with
  | sab => rfl
  | map => exact absurd hprovider hmap
  | sea => exact absurd hprovider hscanned.1.2
  | disk =>
      rw [hprovider] at hscanned
      cases hscanned.1.1
  | nodeDefault =>
      rw [hprovider] at hscanned
      cases hscanned.1.1

end Publishing

/-!
# Places that keep their sources on disk
-/

namespace Config

theorem origin_of_new {sizeToBytes : String -> Number} {raw : Value} {config : VfsConfig}
    (h : VfsConfig.new sizeToBytes raw = Except.ok config) {place : Place}
    (hplace : place ∈ config.places) (hprovider : place.provider = Provider.sab)
    (hvirtual : place.origin ≠ some Origin.virtual) : place.origin = some Origin.disk := by
  rcases new_ok h with ⟨_, _, _, _, hresolved, _, _⟩
  rcases mem_resolvePlaces hresolved hplace with ⟨name, value, _, hone⟩
  rcases resolvePlace_ok hone with ⟨built, hbuilt, hnormalized⟩
  rcases normalizeFallback_ok hnormalized with ⟨fallback, heq⟩
  rw [heq] at hprovider hvirtual ⊢
  have horigin := hbuilt.origin
  change built.provider = Provider.sab at hprovider
  change built.origin ≠ some Origin.virtual at hvirtual
  show built.origin = some Origin.disk
  rw [hprovider] at horigin
  unfold resolveOrigin at horigin
  dsimp only at horigin
  split at horigin
  next hfixed => cases hfixed
  next =>
    split at horigin
    · exact (Except.ok.inj horigin).symm
    · split at horigin
      next origin _ =>
        have hsome := Except.ok.inj horigin
        cases origin with
        | disk => exact hsome.symm
        | virtual => exact absurd hsome.symm hvirtual
      next => exact absurd horigin fail_ne_ok

end Config

namespace Installed

variable {installed : Installed}

theorem discardsRaw_of_onDisk {key : Key} {input : FileInput}
    (h : (installed.place.config.allocOptions installed.place.fileExt key input).onDisk = true) :
    installed.config.discardsRaw = true := by
  have hraw : (installed.place.config.fs.bind FsConfig.compress).any
      (fun compress => !compress.retainRaw) = true := by
    unfold PlaceConfig.allocOptions at h
    rw [Bool.and_eq_true] at h
    exact h.1
  rw [installed.published] at hraw
  unfold Config.Place.discardsRaw
  change ((installed.config.fs.map _).bind FsConfig.compress).any _ = true at hraw
  cases hfs : installed.config.fs with
  | none =>
      rw [hfs] at hraw
      cases hraw
  | some fs =>
      rw [hfs] at hraw
      exact hraw

theorem preparerOf_of_keepsOnDisk (h : KeepsOnDisk installed.config) (key : Key) :
    installed.place.preparerOf key = none := by
  have hprepared : installed.place.prepared key = none := by
    unfold Place.prepared PlaceConfig.prepared
    rw [installed.published]
    show (installed.config.prepare.getD []).lookup _ = none
    rw [h.prepare]
    rfl
  unfold Place.preparerOf
  rw [hprepared]
  rfl

theorem bytecodeDomains_of_keepsOnDisk (h : KeepsOnDisk installed.config) (key : Key) :
    installed.place.config.bytecodeDomains installed.place.fileExt key = [] := by
  rw [installed.published]
  have hrequire : installed.config.published.require.any RequireConfig.compile = false := h.compile
  have hscript : (installed.config.published.fs.bind FsConfig.script).any
      ScriptConfig.compile = false := by
    have hnone := h.script
    unfold Config.Place.script at hnone
    show ((installed.config.fs.map _).bind FsConfig.script).any ScriptConfig.compile = false
    cases hfs : installed.config.fs with
    | none => rfl
    | some fs =>
        rw [hfs] at hnone
        change fs.script = none at hnone
        show fs.script.any ScriptConfig.compile = false
        rw [hnone]
        rfl
  unfold PlaceConfig.bytecodeDomains
  rw [hrequire, hscript]
  simp

end Installed

namespace Publishing

variable {installed : Installed} {key : Key} {input : FileInput} {t : Store}

theorem allocate_onDisk {c : FilesystemCache} {options : AllocOptions}
    (hdisk : options.onDisk = true) (hfallback : options.fallback = true) :
    (c.allocate input options).2 = Allocation.settled (some (diskEntry input)) := by
  unfold FilesystemCache.allocate FilesystemCache.fallbackTo
  rw [hdisk, if_pos rfl, hfallback]
  rfl

/-- With {lit}`retainRaw: false` the input is the file as it was found, and no step of the
publication fails. -/
theorem untroubled (h : Publishing installed key input t)
    (hkeeps : KeepsOnDisk installed.config)
    (hdisk : (installed.place.config.allocOptions installed.place.fileExt key input).onDisk = true) :
    input.path.isSome = true ∧ Store.Untroubled installed.place.fileExt t := by
  have hpath : input.path.isSome = true := by
    rcases h.origin with ⟨hmap, file, hraw, hinput⟩
    rw [Lifecycle.input_plain (installed.preparerOf_of_keepsOnDisk hkeeps key) hmap] at hinput
    cases hinput
    exact hraw.path_of_keepsOnDisk hkeeps
  refine ⟨hpath, ?_⟩
  induction h with
  | start file target c _ _ _ =>
      refine ⟨installed.bytecodeDomains_of_keepsOnDisk hkeeps key, ?_⟩
      exact ⟨diskEntry input, allocate_onDisk hdisk hpath⟩
  | filled t t' c c' ok data _ hfilled ih => exact Store.untroubled_filled ih hfilled
  | resume t t' c c' answer _ hresume ih =>
      cases Store.untroubled_resume ih hresume with
      | inl hnext =>
          rcases hnext with ⟨next, heq, hu⟩
          cases heq
          exact hu
      | inr hdone => cases hdone

end Publishing

/-- For every accepted config and every publication: a source that is staged as a disk
entry is one of a shared place with a directory, has no preparer and lies at the path of its
key; no companion is staged as a disk entry; and a source that is to be kept on disk has a
path, and its publication does not fail. -/
theorem disk_entries_canonical (sizeToBytes : String -> Foundation.Number) {raw : Foundation.Value}
    {config : Config.VfsConfig} (h : Config.VfsConfig.new sizeToBytes raw = Except.ok config)
    {installed : Installed} (hplace : installed.config ∈ config.places) {key : Key}
    {input : FileInput} {t : Store} (hpublishing : Publishing installed key input t) :
    (forall answer c c' changes,
      t.resume installed.place.fileExt c answer = some (c', Progress.done changes) ->
        forall slot entry, (slot, some entry) ∈ changes ->
          forall path, entry.kind = EntryKind.disk path ->
            slot.key = EntryKey.ofSource key ∧ installed.config.provider = Provider.sab ∧
              installed.config.origin = some Origin.disk ∧ installed.place.prepared key = none ∧
              path = some (installed.place.pathOf key)) ∧
    ((installed.place.config.allocOptions installed.place.fileExt key input).onDisk = true ->
      input.path.isSome = true ∧ forall answer c c',
        t.resume installed.place.fileExt c answer ≠ some (c', Progress.failed)) := by
  constructor
  · intro answer c c' changes hdone slot entry hmem path hkind
    have hplaced := Store.staged_of_canonical hpublishing.canonical hdone hmem
    rcases hplaced with ⟨hsource, ⟨hflavor, hof⟩ | ⟨_, hshared⟩⟩
    · rcases hof path hkind with ⟨hpath, hsome⟩
      cases hinput : input.path with
      | none =>
          rw [hinput] at hsome
          cases hsome
      | some found =>
          rcases hpublishing.path_of_input hinput with ⟨hprovider, hvirtual, hprepared, hpathOf⟩
          refine ⟨?_, hprovider, Config.origin_of_new h hplace hprovider hvirtual, hprepared, ?_⟩
          · rcases slot with ⟨place, ⟨source, flavor⟩⟩
            change source = key at hsource
            change flavor = none at hflavor
            rw [hsource, hflavor]
            rfl
          · rw [hpath, hinput, hpathOf]
    · exact absurd hkind (hshared path)
  · intro hdisk
    have hkeeps := Config.keepsOnDisk_of_new h hplace (installed.discardsRaw_of_onDisk hdisk)
    rcases hpublishing.untroubled hkeeps hdisk with ⟨hpath, hu⟩
    refine ⟨hpath, ?_⟩
    intro answer c c' hfailed
    cases Store.untroubled_resume hu hfailed with
    | inl hnext =>
        rcases hnext with ⟨next, heq, _⟩
        cases heq
    | inr hdone => cases hdone

/-- One place whose compressed files stay on disk. -/
def discardingRaw : Foundation.Value :=
  Value.object [("places", Value.object [("a", Value.object [("fs", Value.object
    [("compress", Value.object
      [("encodings", Value.array [Value.string "gzip"]),
        ("retainRaw", Value.boolean false)])])])])]

def discardingConfig : Config.Place :=
  { name := "a"
    enabled := true
    provider := Provider.sab
    origin := some Origin.disk
    maxFileSize := 10000000
    fs := some
      { ext := none
        writable := false
        zeroCopy := false
        compress := some { codecs := [⟨Encoding.gzip, none⟩], ext := none, retainRaw := false }
        script := none
        fallback := some Fallback.disk }
    require := none
    imports := none
    scanExt := none
    prepare := none }

theorem new_discardingRaw : exists config,
    Config.VfsConfig.new Config.defaultSizes discardingRaw = Except.ok config ∧
      config.places = [discardingConfig] := by
  have hplaces : (Config.VfsConfig.new Config.defaultSizes discardingRaw).toOption.map
      Config.VfsConfig.places = some [discardingConfig] := by decide +kernel
  cases hnew : Config.VfsConfig.new Config.defaultSizes discardingRaw with
  | error thrown =>
      rw [hnew] at hplaces
      cases hplaces
  | ok config =>
      rw [hnew] at hplaces
      exact ⟨config, rfl, Option.some.inj hplaces⟩

def discardingPlace : Installed where
  config := discardingConfig
  place :=
    { config := discardingConfig.published
      root := "/app/a"
      fileExt := fun _ => "js"
      registered := fun _ => none
      compileRequire := fun _ _ => none
      compileScript := fun _ _ => none }
  published := rfl
  bound := by
    intro key name hprepared
    cases hprepared

/-- The file {lit}`/x.js` as a scan finds it. -/
def foundFile : FileInput :=
  { data := none, path := some "/app/a/x.js", stat := { size := 5, mtimeMs := 1 } }

theorem publishing_foundFile : Publishing discardingPlace "/x.js".toList foundFile
    (Store.start discardingPlace.place.fileExt (Target.shared 0) discardingPlace.place.config
      "/x.js".toList foundFile (FilesystemCache.new 100 100)).2 := by
  refine Publishing.start foundFile (Target.shared 0) (FilesystemCache.new 100 100) ?_ ?_ ?_
  · exact Installed.Raw.found ["x.js".toList] { size := 5, mtimeMs := 1 } rfl (by decide)
  · exact Async.Returns.done foundFile
  · decide

theorem disk_entries_canonical_foundFile : exists config,
    Config.VfsConfig.new Config.defaultSizes discardingRaw = Except.ok config ∧
      discardingPlace.config ∈ config.places ∧
      (discardingPlace.place.config.allocOptions discardingPlace.place.fileExt "/x.js".toList
        foundFile).onDisk = true ∧ foundFile.path.isSome = true := by
  rcases new_discardingRaw with ⟨config, hnew, hplaces⟩
  have hplace : discardingPlace.config ∈ config.places := by
    rw [hplaces]
    exact List.mem_singleton_self _
  have hdisk : (discardingPlace.place.config.allocOptions discardingPlace.place.fileExt
      "/x.js".toList foundFile).onDisk = true := rfl
  exact ⟨config, hnew, hplace, hdisk,
    ((disk_entries_canonical Config.defaultSizes hnew hplace publishing_foundFile).2 hdisk).1⟩

end SharedMemoryFs
