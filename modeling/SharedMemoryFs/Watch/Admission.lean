import SharedMemoryFs.Lifecycle.Contracts
import SharedMemoryFs.Places.Contents
import SharedMemoryFs.Watch.World

/-!
# What a disk lets in

The contract of everything in flight over one disk: a source taken through the
pipeline is one the scanner admits there, a source that is published was taken, and
the watcher does not lose track of a file that is there.
-/

namespace SharedMemoryFs.Lifecycle

open Foundation

/-- Every source published, or staged to be, was taken through the pipeline. -/
structure Kernel.Recorded (k : Kernel) : Prop where
  files : forall name key, (k.files name).hasSource key = true -> (name, key) ∈ k.stored
  index : forall index, k.cache = some index ->
    forall name key, (index name).hasSource key = true -> (name, key) ∈ k.stored
  staged : forall ep name key file,
    (k.epoch ep).changes.get ⟨name, EntryKey.ofSource key⟩ = some (some file) ->
    (name, key) ∈ k.stored

/-!
# Staged sources
-/

theorem epoch_stage (k : Kernel) (ep ep' : EpochRef) (slot : Slot) (entry : Option PlaceFile) :
    (k.stage ep slot entry).epoch ep' =
      if ep' = ep then { k.epoch ep with changes := (k.epoch ep).changes.set slot entry }
      else k.epoch ep' := by
  unfold Kernel.stage Kernel.epoch
  by_cases hep : ep' = ep
  · rw [if_pos hep, hep]
    dsimp only
    rw [OrderedMap.get_set_self]
    rfl
  · rw [if_neg hep]
    dsimp only
    rw [OrderedMap.get_set_ne _ _ hep]

theorem staged_stage {k : Kernel} {ep ep' : EpochRef} {slot slot' : Slot}
    {entry : Option PlaceFile} {file : PlaceFile}
    (h : ((k.stage ep slot entry).epoch ep').changes.get slot' = some (some file)) :
    (k.epoch ep').changes.get slot' = some (some file) ∨ (slot', some file) = (slot, entry) := by
  rw [epoch_stage] at h
  by_cases hep : ep' = ep
  · rw [if_pos hep] at h
    dsimp only at h
    rw [OrderedMap.get_set] at h
    by_cases hslot : slot' = slot
    · rw [if_pos hslot] at h
      cases h
      rw [hslot]
      exact Or.inr rfl
    · rw [if_neg hslot, ← hep] at h
      exact Or.inl h
  · rw [if_neg hep] at h
    exact Or.inl h

theorem staged_stageAll {changes : Delta} {k : Kernel} {ep ep' : EpochRef} {slot : Slot}
    {file : PlaceFile}
    (h : ((k.stageAll ep changes).epoch ep').changes.get slot = some (some file)) :
    (k.epoch ep').changes.get slot = some (some file) ∨ (slot, some file) ∈ changes := by
  induction changes generalizing k with
  | nil => exact Or.inl h
  | cons change rest ih =>
      rcases ih (k := k.stage ep change.1 change.2) h with hfirst | hrest
      · rcases staged_stage hfirst with hold | hnew
        · exact Or.inl hold
        · rw [hnew]
          exact Or.inr List.mem_cons_self
      · exact Or.inr (List.mem_cons_of_mem _ hrest)

/-- Staging touches nothing but the epochs. -/
theorem stageAll_eq (changes : Delta) (k : Kernel) (ep : EpochRef) :
    exists epochs, k.stageAll ep changes = { k with epochs := epochs } := by
  induction changes generalizing k with
  | nil => exact ⟨k.epochs, rfl⟩
  | cons change rest ih =>
      rcases ih (k.stage ep change.1 change.2) with ⟨epochs, heq⟩
      exact ⟨epochs, heq⟩

/-!
# Published sources
-/

theorem hasSource_publishChange {files : PlaceName -> Files} {change : Slot × Option PlaceFile}
    {name : PlaceName} {key : Key}
    (h : (Kernel.publishChange files change name).hasSource key = true) :
    (files name).hasSource key = true ∨
      exists file, (⟨name, EntryKey.ofSource key⟩, some file) = change := by
  rcases change with ⟨⟨place, changed⟩, entry⟩
  unfold Kernel.publishChange Kernel.setFiles at h
  by_cases hname : name = place
  · rw [hname, Function.update_self] at h
    cases entry with
    | none =>
        rw [hname]
        exact Or.inl h
    | some file =>
        rcases (PlaceFiles.hasSource_set _ _ _ key).mp h with heq | hold
        · right
          refine ⟨file, ?_⟩
          rw [hname, heq]
        · rw [hname]
          exact Or.inl hold
  · rw [Function.update_of_ne hname] at h
    exact Or.inl h

theorem hasSource_removeChange {files : PlaceName -> Files} {change : Slot × Option PlaceFile}
    {name : PlaceName} {key : Key}
    (h : (Kernel.removeChange files change name).hasSource key = true) :
    (files name).hasSource key = true := by
  rcases change with ⟨⟨place, changed⟩, entry⟩
  unfold Kernel.removeChange Kernel.setFiles at h
  by_cases hname : name = place
  · rw [hname, Function.update_self] at h
    rw [hname]
    cases entry with
    | none => exact ((PlaceFiles.hasSource_delete _ _ key).mp h).2
    | some file => exact h
  · rw [Function.update_of_ne hname] at h
    exact h

/-- What a change of the index publishes, or a list of them. -/
theorem hasSource_foldl {step : (PlaceName -> Files) -> Slot × Option PlaceFile -> PlaceName -> Files}
    {name : PlaceName} {key : Key}
    (hstep : forall files change, (step files change name).hasSource key = true ->
      (files name).hasSource key = true ∨
        exists file, (⟨name, EntryKey.ofSource key⟩, some file) = change)
    {changes : Delta} {files : PlaceName -> Files}
    (h : (changes.foldl step files name).hasSource key = true) :
    (files name).hasSource key = true ∨
      exists file, (⟨name, EntryKey.ofSource key⟩, some file) ∈ changes := by
  induction changes generalizing files with
  | nil => exact Or.inl h
  | cons change rest ih =>
      have hrest : (rest.foldl step (step files change) name).hasSource key = true := h
      rcases ih hrest with hfirst | ⟨file, hmem⟩
      · rcases hstep files change hfirst with hold | ⟨file, heq⟩
        · exact Or.inl hold
        · rw [← heq]
          exact Or.inr ⟨file, List.mem_cons_self⟩
      · exact Or.inr ⟨file, List.mem_cons_of_mem _ hmem⟩

theorem hasSource_putChange {files : PlaceName -> Files} {change : Slot × Option PlaceFile}
    {name : PlaceName} {key : Key}
    (h : (Kernel.putChange files change name).hasSource key = true) :
    (files name).hasSource key = true ∨
      exists file, (⟨name, EntryKey.ofSource key⟩, some file) = change :=
  hasSource_publishChange (hasSource_removeChange h)

theorem hasSource_apply {files : PlaceName -> Files} {update : Delta} {name : PlaceName}
    {key : Key} (h : (Kernel.apply files update name).hasSource key = true) :
    (files name).hasSource key = true ∨
      exists file, (⟨name, EntryKey.ofSource key⟩, some file) ∈ update := by
  rcases hasSource_foldl (fun _ _ hremoved => Or.inl (hasSource_removeChange hremoved)) h with
    hpublished | hmem
  · exact hasSource_foldl (fun _ _ => hasSource_publishChange) hpublished
  · exact Or.inr hmem

theorem Kernel.Recorded.commit {k : Kernel} (h : k.Recorded) {index : PlaceName -> Files}
    (hcache : k.cache = some index) (ep : EpochRef) :
    (k.commit index (k.epoch ep).changes.entries).Recorded := by
  have hstaged {name : PlaceName} {key : Key} {file : PlaceFile}
      (hmem : (⟨name, EntryKey.ofSource key⟩, some file) ∈ (k.epoch ep).changes.entries) :
      (name, key) ∈ k.stored :=
    h.staged ep name key file (OrderedMap.mem_entries_iff.mp hmem)
  have hindex {name : PlaceName} {key : Key}
      (hhas : ((k.epoch ep).changes.entries.foldl Kernel.putChange index name).hasSource key =
        true) : (name, key) ∈ k.stored := by
    rcases hasSource_foldl (fun _ _ => hasSource_putChange) hhas with hold | ⟨file, hmem⟩
    · exact h.index index hcache name key hold
    · exact hstaged hmem
  unfold Kernel.commit
  dsimp only
  split_ifs
  · constructor
    · exact h.files
    · intro index' hcache' name key hhas
      cases hcache'
      exact hindex hhas
    · exact h.staged
  · constructor
    · intro name key hhas
      rcases hasSource_apply hhas with hold | ⟨file, hmem⟩
      · exact h.files name key hold
      · exact hstaged (List.mem_filter.mp hmem).1
    · intro index' hcache' name key hhas
      cases hcache'
      exact hindex hhas
    · exact h.staged

/-- A kernel that publishes no more than before. -/
theorem Kernel.Recorded.shrink {k k' : Kernel} (h : k.Recorded)
    (hstored : forall source, source ∈ k.stored -> source ∈ k'.stored)
    (hfiles : forall name key, (k'.files name).hasSource key = true ->
      (k.files name).hasSource key = true)
    (hcache : k'.cache = k.cache)
    (hstaged : forall ep slot file, (k'.epoch ep).changes.get slot = some (some file) ->
      (k.epoch ep).changes.get slot = some (some file)) : k'.Recorded := by
  constructor
  · intro name key hhas
    exact hstored _ (h.files name key (hfiles name key hhas))
  · intro index hindex name key hhas
    rw [hcache] at hindex
    exact hstored _ (h.index index hindex name key hhas)
  · intro ep name key file hget
    exact hstored _ (h.staged ep name key file (hstaged ep _ file hget))

/-!
# The contract
-/

section Contract

variable (config : Config) (strict : Bool) (d : Disk)

/-- A source the pipeline may take from this disk. -/
def Fine (source : PlaceName × Key) : Prop :=
  forall hosted, hosted ∈ config.places -> hosted.fromDisk = true -> hosted.name = source.1 ->
    d.Admits strict hosted source.2

/-- A path the kernel handles. -/
def Known (hosted : HostedPlace) (key : Key) : Prop :=
  hosted ∈ config.places ∧ (hosted.fromDisk = true -> OfNames key)

def Kernel.Knows (k : Kernel) : Prop :=
  forall name key hosted, k.rechecks.get (name, key) = some hosted -> Known config hosted key

/-- Whatever is a file here stays tracked. -/
def Stays (k k' : Kernel) : Prop :=
  forall hosted key stats, hosted ∈ config.places -> hosted.fromDisk = true ->
    d.stat (hosted.pathOf key) = Except.ok stats -> stats.kind = DiskKind.file ->
    k.Tracks hosted key -> k'.Tracks hosted key

structure Grows (k k' : Kernel) : Prop where
  state : k'.state = k.state
  stored : exists more, k'.stored = more ++ k.stored ∧
    forall source, source ∈ more -> Fine config strict d source
  recorded : k.Recorded -> k'.Recorded
  tracked : Stays config d k k'
  rechecks : k.Knows config -> k'.Knows config

/-- While the places are scanned for the first time nothing is expected of others:
each scan starts anew what is tracked. -/
def watching (scanning : Prop) : Async.Contract Ask.reply Kernel :=
  { guar := Grows config strict d
    rely := fun k k' => scanning ∨ Stays config d k k'
    answers := fun question answer _ => d.Answers strict question answer }

end Contract

variable {config : Config} {strict : Bool} {d : Disk} {scanning : Prop}

theorem Stays.refl (k : Kernel) : Stays config d k k :=
  fun _ _ _ _ _ _ _ h => h

theorem Stays.trans {k k' k'' : Kernel} (h : Stays config d k k') (h' : Stays config d k' k'') :
    Stays config d k k'' :=
  fun hosted key stats hmem hdisk hstat hkind htracks =>
    h' hosted key stats hmem hdisk hstat hkind (h hosted key stats hmem hdisk hstat hkind htracks)

theorem Stays.of_sources {k k' : Kernel} (h : k'.sources = k.sources) : Stays config d k k' := by
  intro hosted key stats _ _ _ _ htracks
  unfold Kernel.Tracks
  rw [h]
  exact htracks

theorem watching_shared : (watching config strict d scanning).Shared := by
  constructor
  · constructor
    · intro k
      exact ⟨rfl, ⟨[], rfl, fun _ hmem => by cases hmem⟩, fun h => h, Stays.refl k, fun h => h⟩
    · intro k k' k'' h h'
      constructor
      · exact h'.state.trans h.state
      · rcases h.stored with ⟨more, heq, hmore⟩
        rcases h'.stored with ⟨more', heq', hmore'⟩
        refine ⟨more' ++ more, ?_, ?_⟩
        · rw [heq', heq, List.append_assoc]
        · intro source hmem
          rcases List.mem_append.mp hmem with hfirst | hlast
          · exact hmore' source hfirst
          · exact hmore source hlast
      · exact fun hk => h'.recorded (h.recorded hk)
      · exact h.tracked.trans h'.tracked
      · exact fun hk => h'.rechecks (h.rechecks hk)
  · intro k k' h
    exact Or.inr h.tracked
  · intro k k' k'' h h'
    rcases h with hscanning | hstays
    · exact Or.inl hscanning
    · exact h'.imp id hstays.trans

/-- A step that takes nothing through the pipeline and publishes nothing. -/
theorem Grows.of_quiet {k k' : Kernel} (hstate : k'.state = k.state)
    (hstored : k'.stored = k.stored)
    (hfiles : forall name key, (k'.files name).hasSource key = true ->
      (k.files name).hasSource key = true)
    (hcache : k'.cache = k.cache)
    (hstaged : forall ep slot file, (k'.epoch ep).changes.get slot = some (some file) ->
      (k.epoch ep).changes.get slot = some (some file))
    (htracked : Stays config d k k') (hrechecks : k.Knows config -> k'.Knows config) :
    Grows config strict d k k' := by
  constructor
  · exact hstate
  · rw [hstored]
    exact ⟨[], rfl, fun _ hmem => by cases hmem⟩
  · intro h
    apply h.shrink _ hfiles hcache hstaged
    intro source hmem
    rw [hstored]
    exact hmem
  · exact htracked
  · exact hrechecks

/-- Places of one name are one place. -/
theorem place_unique (config : Config) {a b : HostedPlace} (ha : a ∈ config.places)
    (hb : b ∈ config.places) (h : a.name = b.name) : a = b := by
  by_contra hne
  have hsymm : Std.Symm (fun a b : HostedPlace => a.name ≠ b.name) :=
    ⟨fun _ _ hname => hname.symm⟩
  exact config.distinct.forall ha hb hne h

theorem fine_of_admits {hosted : HostedPlace} {key : Key} (hmem : hosted ∈ config.places)
    (h : hosted.fromDisk = true -> d.Admits strict hosted key) :
    Fine config strict d (hosted.name, key) := by
  intro other hother hdisk hname
  rw [place_unique config hother hmem hname] at hdisk ⊢
  exact h hdisk

theorem admits_ofNames {hosted : HostedPlace} {key : Key} (h : d.Admits strict hosted key) :
    OfNames key := by
  rcases h with ⟨base, names, node, _, hplain, heq, _⟩
  exact ⟨names, hplain, heq⟩

theorem tracks_track {k : Kernel} {hosted other : HostedPlace} {key key' : Key}
    {file : FileInput} (h : k.Tracks other key') :
    (trackSource hosted key file k).Tracks other key' := by
  unfold Kernel.Tracks at h ⊢
  unfold trackSource
  dsimp only
  by_cases hname : other.name = hosted.name
  · rw [hname] at h ⊢
    rw [Function.update_self]
    cases hsource : k.sources hosted.name with
    | none =>
        rw [hsource] at h
        cases h
    | some source =>
        rw [hsource] at h
        exact (PlaceFiles.hasSource_set source _ file key').mpr (Or.inr h)
  · rw [Function.update_of_ne hname]
    exact h

theorem knows_schedule {k : Kernel} {hosted : HostedPlace} {key : Key}
    (hknown : Known config hosted key) (h : k.Knows config) :
    (k.scheduleRecheck hosted key).Knows config := by
  unfold Kernel.scheduleRecheck
  split_ifs
  · exact h
  · intro name key' other hget
    dsimp only at hget
    rw [OrderedMap.get_set] at hget
    by_cases heq : (name, key') = (hosted.name, key)
    · rw [if_pos heq] at hget
      cases hget
      cases heq
      exact hknown
    · rw [if_neg heq] at hget
      exact h name key' other hget

theorem knows_cancel {k : Kernel} (hosted : HostedPlace) (key : Key) (h : k.Knows config) :
    (k.cancelRecheck hosted key).Knows config := by
  intro name key' other hget
  unfold Kernel.cancelRecheck at hget
  dsimp only at hget
  rw [OrderedMap.get_delete] at hget
  split_ifs at hget
  exact h name key' other hget

/-!
# A publication
-/

theorem watching_publishes {hosted : HostedPlace} {key : Key} (hmem : hosted ∈ config.places)
    (h : hosted.fromDisk = true -> d.Admits strict hosted key) :
    Publishes (watching config strict d scanning) hosted key := by
  have hfine := fine_of_admits hmem h
  have htaken : forall source, source ∈ [(hosted.name, key)] -> Fine config strict d source := by
    intro source hsource
    rw [List.mem_singleton.mp hsource]
    exact hfine
  constructor
  · intro k ep built _ hbuilt
    rcases stageAll_eq (built.changes hosted.name) k ep with ⟨epochs, heq⟩
    constructor
    · rw [heq]
      rfl
    · refine ⟨[(hosted.name, key)], ?_, htaken⟩
      rw [heq]
      rfl
    · intro hk
      have hstored (source : PlaceName × Key) (hsource : source ∈ k.stored) :
          source ∈ ((k.stageAll ep (built.changes hosted.name)).record hosted.name key).stored := by
        rw [heq]
        exact List.mem_cons_of_mem _ hsource
      constructor
      · intro name key' hhas
        rw [heq] at hhas
        exact hstored _ (hk.files name key' hhas)
      · intro index hindex name key' hhas
        rw [heq] at hindex
        exact hstored _ (hk.index index hindex name key' hhas)
      · intro ep' name key' file hget
        rcases staged_stageAll (k := k) hget with hold | hnew
        · exact hstored _ (hk.staged ep' name key' file hold)
        · rcases List.mem_append.mp hnew with hentry | hdropped
          · rcases List.mem_map.mp hentry with ⟨entry, hin, hslot⟩
            rcases Prod.mk.inj hslot with ⟨hslot, _⟩
            rcases Slot.mk.inj hslot with ⟨hname, hkey⟩
            have hsource := hbuilt.1 entry hin
            rw [hkey] at hsource
            rw [← hname, show key' = key from hsource]
            exact List.mem_cons_self
          · rcases List.mem_map.mp hdropped with ⟨companion, _, hslot⟩
            cases (Prod.mk.inj hslot).2
    · apply Stays.of_sources
      rw [heq]
      rfl
    · intro hk
      rw [heq]
      exact hk
  · intro k file own _ hpublish
    constructor
    · rfl
    · exact ⟨[(hosted.name, key)], rfl, htaken⟩
    · intro hk
      constructor
      · intro name key' hhas
        have hhas' : (Kernel.setFiles k.files hosted.name own name).hasSource key' = true := hhas
        unfold Kernel.setFiles at hhas'
        by_cases hname : name = hosted.name
        · rw [hname, Function.update_self] at hhas'
          rcases (MapStore.hasSource_publish hpublish key').mp hhas' with heq | hold
          · rw [hname, heq]
            exact List.mem_cons_self
          · rw [hname]
            exact List.mem_cons_of_mem _ (hk.files _ key' hold)
        · rw [Function.update_of_ne hname] at hhas'
          exact List.mem_cons_of_mem _ (hk.files name key' hhas')
      · intro index hindex name key' hhas
        exact List.mem_cons_of_mem _ (hk.index index hindex name key' hhas)
      · intro ep name key' file hget
        exact List.mem_cons_of_mem _ (hk.staged ep name key' file hget)
    · exact Stays.of_sources rfl
    · exact fun hk => hk
  · intro k file
    show Grows config strict d k (trackSource hosted key file k)
    apply Grows.of_quiet
    · rfl
    · rfl
    · exact fun _ _ hhas => hhas
    · rfl
    · exact fun _ _ _ hget => hget
    · intro other key' _ _ _ _ _ htracks
      exact tracks_track htracks
    · exact fun hk => hk
  · intro k _
    have hknown : Known config hosted key := ⟨hmem, fun hdisk => admits_ofNames (h hdisk)⟩
    have hsame : exists rechecks, k.scheduleRecheck hosted key = { k with rechecks := rechecks } := by
      unfold Kernel.scheduleRecheck
      split_ifs
      · exact ⟨k.rechecks, rfl⟩
      · exact ⟨_, rfl⟩
    have hknows := knows_schedule (k := k) hknown
    rcases hsame with ⟨rechecks, heq⟩
    rw [heq] at hknows ⊢
    apply Grows.of_quiet
    · rfl
    · rfl
    · exact fun _ _ hhas => hhas
    · rfl
    · exact fun _ _ _ hget => hget
    · exact Stays.of_sources rfl
    · exact hknows

/-!
# A job of an epoch
-/

theorem watching_handles (hosted : HostedPlace) : Handles (watching config strict d scanning) hosted := by
  constructor
  · intro k ep key
    show Grows config strict d k (k.markSeen ep hosted.name key)
    apply Grows.of_quiet
    · rfl
    · rfl
    · exact fun _ _ hhas => hhas
    · rfl
    · intro ep' slot file hget
      have hepoch : ((k.markSeen ep hosted.name key).epoch ep').changes =
          (k.epoch ep').changes := by
        unfold Kernel.markSeen Kernel.epoch
        by_cases hep : ep' = ep
        · rw [hep]
          dsimp only
          rw [OrderedMap.get_set_self]
          rfl
        · dsimp only
          rw [OrderedMap.get_set_ne _ _ hep]
      rw [hepoch] at hget
      exact hget
    · exact Stays.of_sources rfl
    · exact fun hk => hk
  · intro k key
    show Grows config strict d k (k.cancelRecheck hosted key)
    apply Grows.of_quiet
    · rfl
    · rfl
    · exact fun _ _ hhas => hhas
    · rfl
    · exact fun _ _ _ hget => hget
    · exact Stays.of_sources rfl
    · exact knows_cancel hosted key

theorem mem_gone {source : PlaceFiles FileInput} {key dropped : Key} (hkey : OfNames key)
    (h : dropped ∈ Kernel.gone source key) : dropped = key ∨ Above slash key dropped := by
  unfold Kernel.gone at h
  rcases List.mem_append.mp h with hself | hbelow
  · split_ifs at hself
    · exact Or.inl (List.mem_singleton.mp hself)
    · cases hself
  · rcases List.mem_map.mp hbelow with ⟨child, hmem, heq⟩
    right
    rw [← heq, ← dirOf_ofNames hkey]
    exact PlaceFiles.mem_belowWithin_above source _ _ (List.mem_filter.mp hmem).1

theorem untrack_grows {hosted : HostedPlace} (hmem : hosted ∈ config.places) {dropped : Key}
    (hgone : hosted.fromDisk = true -> forall stats,
      d.stat (hosted.pathOf dropped) = Except.ok stats -> stats.kind ≠ DiskKind.file) (k : Kernel) :
    Grows config strict d k (k.untrack hosted dropped) := by
  apply Grows.of_quiet
  · rfl
  · rfl
  · exact fun _ _ hhas => hhas
  · rfl
  · exact fun _ _ _ hget => hget
  · intro other key stats hother hdisk hstat hkind htracks
    unfold Kernel.Tracks at htracks ⊢
    unfold Kernel.untrack
    dsimp only
    by_cases hname : other.name = hosted.name
    · have hsame := place_unique config hother hmem hname
      rw [hsame] at hdisk hstat htracks ⊢
      rw [Function.update_self]
      cases hsource : k.sources hosted.name with
      | none =>
          rw [hsource] at htracks
          cases htracks
      | some source =>
          rw [hsource] at htracks
          apply (PlaceFiles.hasSource_delete source _ key).mpr
          constructor
          · intro heq
            rw [PlaceFiles.ofSource_inj.mp heq] at hstat
            exact hgone hdisk stats hstat hkind
          · exact htracks
    · rw [Function.update_of_ne hname]
      exact htracks
  · exact fun hk => hk

theorem removeMap_grows (k : Kernel) (hosted : HostedPlace) (dropped : Key) :
    Grows config strict d k (k.removeMap hosted dropped) := by
  unfold Kernel.removeMap
  dsimp only
  split_ifs
  · apply Grows.of_quiet
    · rfl
    · rfl
    · intro name key hhas
      dsimp only at hhas
      unfold Kernel.setFiles at hhas
      by_cases hname : name = hosted.name
      · rw [hname, Function.update_self] at hhas
        rw [hname]
        exact ((MapStore.hasSource_remove key).mp hhas).2
      · rw [Function.update_of_ne hname] at hhas
        exact hhas
    · rfl
    · exact fun _ _ _ hget => hget
    · exact Stays.of_sources rfl
    · exact fun hk => hk
  · have hc : (watching config strict d False).Shared := watching_shared
    exact hc.refl k

theorem unstage_grows (k : Kernel) (ep : EpochRef) (hosted : HostedPlace) (dropped : Key) :
    Grows config strict d k (k.unstage ep hosted dropped) := by
  rcases stageAll_eq ((EntryKey.ofSource dropped :: hosted.place.companions dropped).map
    (fun companion => ((⟨hosted.name, companion⟩ : Slot), (none : Option PlaceFile)))) k ep with
    ⟨epochs, heq⟩
  have hstaged : forall ep' slot file,
      ((k.unstage ep hosted dropped).epoch ep').changes.get slot = some (some file) ->
      (k.epoch ep').changes.get slot = some (some file) := by
    intro ep' slot file hget
    rcases staged_stageAll (k := k) hget with hold | hnew
    · exact hold
    · rcases List.mem_map.mp hnew with ⟨companion, _, hslot⟩
      cases (Prod.mk.inj hslot).2
  have hunstage : k.unstage ep hosted dropped = { k with epochs := epochs } := heq
  rw [hunstage] at hstaged ⊢
  apply Grows.of_quiet
  · rfl
  · rfl
  · exact fun _ _ hhas => hhas
  · rfl
  · exact hstaged
  · exact Stays.of_sources rfl
  · exact fun hk => hk

theorem dropSource_grows {hosted : HostedPlace} (hmem : hosted ∈ config.places) {dropped : Key}
    (hgone : hosted.fromDisk = true -> forall stats,
      d.stat (hosted.pathOf dropped) = Except.ok stats -> stats.kind ≠ DiskKind.file) (k : Kernel) (ep : EpochRef) :
    Grows config strict d k (k.dropSource ep hosted dropped) := by
  have hc : (watching config strict d False).Shared := watching_shared
  have huntracked : Grows config strict d k (k.untrack hosted dropped) :=
    untrack_grows hmem hgone k
  have hcancelled : Grows config strict d k
      ((k.untrack hosted dropped).cancelRecheck hosted dropped) :=
    hc.trans _ _ _ huntracked ((watching_handles hosted).cancel _ dropped)
  unfold Kernel.dropSource
  dsimp only
  split_ifs
  · exact hc.trans _ _ _ hcancelled (removeMap_grows _ hosted dropped)
  · exact hc.trans _ _ _ hcancelled (unstage_grows _ ep hosted dropped)

theorem watching_removes {hosted : HostedPlace} {key : Key} (hknown : Known config hosted key)
    {k : Kernel}
    (h : (watching config strict d scanning).answers (Ask.stat hosted key) none k) :
    Removes (watching config strict d scanning) hosted key := by
  intro source dropped hdropped k ep
  have hnone : (d.stat (hosted.pathOf key)).toOption = none := Eq.symm h
  apply dropSource_grows hknown.1
  intro hdisk stats hstat _
  have hexists : exists stats, d.stat (hosted.pathOf key) = Except.ok stats := by
    rcases mem_gone (hknown.2 hdisk) hdropped with heq | habove
    · rw [heq] at hstat
      exact ⟨stats, hstat⟩
    · exact Disk.stat_above (hknown.2 hdisk) habove hstat
  rcases hexists with ⟨found, hfound⟩
  rw [hfound] at hnone
  cases hnone

theorem watching_commits : Commits (watching config strict d scanning) := by
  constructor
  · intro k
    show Grows config strict d k k.openEpoch
    apply Grows.of_quiet
    · rfl
    · rfl
    · exact fun _ _ hhas => hhas
    · rfl
    · intro ep slot file hget
      unfold Kernel.openEpoch Kernel.epoch at hget
      dsimp only at hget
      by_cases hep : ep = k.nextEpoch
      · rw [hep, OrderedMap.get_set_self] at hget
        cases hget
      · rw [OrderedMap.get_set_ne _ _ hep] at hget
        exact hget
    · exact Stays.of_sources rfl
    · exact fun hk => hk
  · intro k index ep _ hcache
    have hsame : exists cache files posted,
        k.commit index (k.epoch ep).changes.entries =
          { k with cache := cache, files := files, posted := posted } := by
      unfold Kernel.commit
      dsimp only
      split_ifs
      · exact ⟨_, _, k.posted, rfl⟩
      · exact ⟨_, _, _, rfl⟩
    have hrecorded (hk : k.Recorded) := hk.commit hcache ep
    rcases hsame with ⟨cache, files, posted, heq⟩
    show Grows config strict d k (k.commit index (k.epoch ep).changes.entries)
    rw [heq] at hrecorded ⊢
    constructor
    · rfl
    · exact ⟨[], rfl, fun _ hmem => by cases hmem⟩
    · exact hrecorded
    · exact Stays.of_sources rfl
    · exact fun hk => hk

/-!
# When the kernel takes care
-/

/-- What a stat takes for a file to refresh is one the scanner admits. -/
def RefreshesRightly (strict : Bool) (d : Disk) (hosted : HostedPlace) (key : Key) : Prop :=
  hosted.scanExt.all (fun ext => ext.contains (hosted.place.fileExt key)) = true ->
    forall stats, d.stat (hosted.pathOf key) = Except.ok stats -> stats.kind = DiskKind.file ->
      d.Admits strict hosted key

/-- What a rescan would publish is what the scanner admits. -/
def RescansRightly (strict : Bool) (d : Disk) (k : Kernel) (hosted : HostedPlace) (key : Key) :
    Prop :=
  forall found, found ∈ d.scan strict hosted key -> ¬ k.Tracks hosted found.1 ->
    d.Admits strict hosted found.1

def Change.Rightly (strict : Bool) (d : Disk) (k : Kernel) (hosted : HostedPlace) (key : Key) :
    Change -> Prop
  | Change.change => RefreshesRightly strict d hosted key
  | Change.scan => RescansRightly strict d k hosted key
  | Change.delete => RefreshesRightly strict d hosted key ∧ RescansRightly strict d k hosted key

/-- The task meets no link, on the disk and with the sources of its turn, that the
scanner would refuse. -/
def Serial.Rightly (strict : Bool) (d : Disk) (k : Kernel) (task : Serial) : Prop :=
  match task with
  | Serial.epoch events => forall event, event ∈ events -> event.1.fromDisk = true ->
      event.2.2.Rightly strict d k event.1 event.2.1
  | Serial.recheck hosted key => hosted.fromDisk = true -> RefreshesRightly strict d hosted key

theorem watching_refreshes {hosted : HostedPlace} {key : Key} (hknown : Known config hosted key)
    (h : hosted.fromDisk = true -> RefreshesRightly strict d hosted key) :
    Refreshes (watching config strict d scanning) hosted key := by
  constructor
  · intro hext stats k hanswer hkind
    apply watching_publishes hknown.1
    intro hdisk
    have hstat : some stats = (d.stat (hosted.pathOf key)).toOption := hanswer
    cases hfound : d.stat (hosted.pathOf key) with
    | error error =>
        rw [hfound] at hstat
        cases hstat
    | ok found =>
        rw [hfound] at hstat
        cases hstat
        exact h hdisk hext stats hfound hkind
  · intro k hanswer
    exact watching_removes hknown hanswer

theorem watching_rescans {hosted : HostedPlace} {key : Key} (hmem : hosted ∈ config.places)
    {k : Kernel} (h : hosted.fromDisk = true -> RescansRightly strict d k hosted key) :
    Rescans (watching config strict d scanning) (Stays config d k) hosted key := by
  intro files k' hanswer file hfile k'' hstays huntracked
  apply watching_publishes hmem
  intro hdisk
  have heq : files = d.scan strict hosted key := hanswer
  rw [heq] at hfile
  apply h hdisk file hfile
  intro htracks
  rcases Disk.scan_stat hfile with ⟨stats, hstat, hkind⟩
  exact huntracked (hstays hosted file.1 stats hmem hdisk hstat hkind htracks)

theorem watching_stable (h : ¬ scanning) (k : Kernel) :
    (watching config strict d scanning).Stable (Stays config d k) :=
  fun _ _ hstays hrely => hrely.elim (fun hscanning => absurd hscanning h) hstays.trans

/-- The task's paths are ones the kernel handles. -/
def Serial.Known (config : Config) (task : Serial) : Prop :=
  match task with
  | Serial.epoch events => forall event, event ∈ events -> Lifecycle.Known config event.1 event.2.1
  | Serial.recheck hosted key => Lifecycle.Known config hosted key

theorem watching_allowed {task : Serial} (hknown : task.Known config) {k : Kernel}
    (h : task.Rightly strict d k) :
    task.Allowed (watching config strict d scanning) (Stays config d k) := by
  cases task with
  | recheck hosted key =>
      exact ⟨watching_handles hosted, watching_refreshes hknown h⟩
  | epoch events =>
      intro event hmem
      have hevent := hknown event hmem
      have hright := h event hmem
      constructor
      · exact watching_handles event.1
      · cases hchange : event.2.2 with
        | change =>
            rw [hchange] at hright
            exact watching_refreshes hevent hright
        | scan =>
            rw [hchange] at hright
            exact watching_rescans hevent.1 hright
        | delete =>
            rw [hchange] at hright
            exact ⟨watching_refreshes hevent (fun hdisk => (hright hdisk).1),
              watching_rescans hevent.1 (fun hdisk => (hright hdisk).2)⟩

end SharedMemoryFs.Lifecycle
