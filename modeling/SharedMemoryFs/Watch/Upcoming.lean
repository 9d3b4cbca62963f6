import SharedMemoryFs.Watch.Turns

/-!
# One key while an epoch runs

What is published under a key, what the flush of the epoch will publish there, and who
leaves it alone: everything done for another key.
-/

namespace SharedMemoryFs.Lifecycle

open Foundation

/-- What a place publishes: a map place its own files, a shared place its index. -/
def Kernel.published (k : Kernel) (hosted : HostedPlace) : Files :=
  if hosted.provider = Provider.map then k.files hosted.name
  else (k.cache.map (fun index => index hosted.name)).getD PlaceFiles.empty

def sourceSlot (hosted : HostedPlace) (key : Key) : Slot :=
  ⟨hosted.name, EntryKey.ofSource key⟩

/-- The source of a key once the epoch is flushed. -/
def Kernel.upcoming (k : Kernel) (ep : EpochRef) (hosted : HostedPlace) (key : Key) :
    Option PlaceFile :=
  if hosted.provider = Provider.map then (k.published hosted).get (EntryKey.ofSource key)
  else ((k.epoch ep).changes.get (sourceSlot hosted key)).getD
    ((k.published hosted).get (EntryKey.ofSource key))

/-- A job of the epoch has begun to publish the key. -/
def Kernel.Marked (k : Kernel) (ep : EpochRef) (hosted : HostedPlace) (key : Key) : Prop :=
  (hosted.name, key) ∈ (k.epoch ep).seen

/-- Nothing changes for the key. -/
structure Kernel.Leaves (ep : EpochRef) (hosted : HostedPlace) (key : Key) (k k' : Kernel) :
    Prop where
  works : k.Works k'
  tracks : k'.Tracks hosted key <-> k.Tracks hosted key
  staged : (k'.epoch ep).changes.get (sourceSlot hosted key) =
    (k.epoch ep).changes.get (sourceSlot hosted key)
  published : (k'.published hosted).get (EntryKey.ofSource key) =
    (k.published hosted).get (EntryKey.ofSource key)
  marked : k'.Marked ep hosted key <-> k.Marked ep hosted key
  rechecks : k'.rechecks.has (hosted.name, key) = k.rechecks.has (hosted.name, key)

namespace Kernel.Leaves

variable {ep : EpochRef} {hosted other : HostedPlace} {key j : Key} {k k' k'' : Kernel}

theorem refl (k : Kernel) : Kernel.Leaves ep hosted key k k :=
  ⟨Kernel.Works.refl k, Iff.rfl, rfl, rfl, Iff.rfl, rfl⟩

theorem trans (h : Kernel.Leaves ep hosted key k k') (h' : Kernel.Leaves ep hosted key k' k'') :
    Kernel.Leaves ep hosted key k k'' :=
  ⟨h.works.trans h'.works, h'.tracks.trans h.tracks, h'.staged.trans h.staged,
    h'.published.trans h.published, h'.marked.trans h.marked, h'.rechecks.trans h.rechecks⟩

theorem upcoming (h : Kernel.Leaves ep hosted key k k') :
    k'.upcoming ep hosted key = k.upcoming ep hosted key := by
  unfold Kernel.upcoming
  rw [h.staged, h.published]

/-- Only the records of an update and of the pipeline change. -/
theorem record (k : Kernel) (name : PlaceName) (key' : Key) :
    Kernel.Leaves ep hosted key k (k.record name key') :=
  ⟨Kernel.Works.of_same rfl rfl rfl rfl, Iff.rfl, rfl, rfl, Iff.rfl, rfl⟩

end Kernel.Leaves

/-!
# Changes for other keys
-/

section Others

variable {ep : EpochRef} {hosted other : HostedPlace} {key j : Key}

theorem get_stageAll_ne {k : Kernel} {ep' : EpochRef} {changes : Delta} {slot : Slot}
    (h : forall change, change ∈ changes -> change.1 ≠ slot) :
    ((k.stageAll ep' changes).epoch ep).changes.get slot = (k.epoch ep).changes.get slot := by
  induction changes generalizing k with
  | nil => rfl
  | cons change rest ih =>
      have hrest := ih (k := k.stage ep' change.1 change.2)
        (fun c hc => h c (List.mem_cons_of_mem change hc))
      have hfirst : ((k.stage ep' change.1 change.2).epoch ep).changes.get slot =
          (k.epoch ep).changes.get slot := by
        rw [epoch_stage]
        by_cases hep : ep = ep'
        · rw [if_pos hep, hep]
          exact OrderedMap.get_set_ne _ _ (fun heq => h change List.mem_cons_self heq.symm)
        · rw [if_neg hep]
      exact hrest.trans hfirst

theorem seen_stageAll (k : Kernel) (ep' : EpochRef) (changes : Delta) :
    ((k.stageAll ep' changes).epoch ep).seen = (k.epoch ep).seen := by
  induction changes generalizing k with
  | nil => rfl
  | cons change rest ih =>
      have hfirst : ((k.stage ep' change.1 change.2).epoch ep).seen = (k.epoch ep).seen := by
        rw [epoch_stage]
        by_cases hep : ep = ep'
        · rw [if_pos hep, hep]
        · rw [if_neg hep]
      exact (ih (k.stage ep' change.1 change.2)).trans hfirst

theorem leaves_stageAll (k : Kernel) (ep' : EpochRef) {changes : Delta}
    (h : forall change, change ∈ changes -> change.1 ≠ sourceSlot hosted key) :
    Kernel.Leaves ep hosted key k (k.stageAll ep' changes) := by
  have hstaged : ((k.stageAll ep' changes).epoch ep).changes.get (sourceSlot hosted key) =
      (k.epoch ep).changes.get (sourceSlot hosted key) := get_stageAll_ne h
  have hseen : ((k.stageAll ep' changes).epoch ep).seen = (k.epoch ep).seen :=
    seen_stageAll k ep' changes
  have hmarked : (k.stageAll ep' changes).Marked ep hosted key <-> k.Marked ep hosted key := by
    unfold Kernel.Marked
    rw [hseen]
  have hworks := Kernel.Works.stageAll k ep' changes
  rcases stageAll_eq changes k ep' with ⟨epochs, heq⟩
  rw [heq] at hstaged hmarked hworks ⊢
  exact ⟨hworks, Iff.rfl, hstaged, rfl, hmarked, rfl⟩

variable (hne : other.name = hosted.name -> j ≠ key)
include hne

theorem leaves_stage (k : Kernel) (ep' : EpochRef) {built : Built} (hbuilt : built.Of j) :
    Kernel.Leaves ep hosted key k (k.stageAll ep' (built.changes other.name)) := by
  apply leaves_stageAll
  intro change hmem heq
  have hkeys : other.name = hosted.name ∧ j = key := by
    rcases List.mem_append.mp hmem with hentry | hdropped
    · rcases List.mem_map.mp hentry with ⟨entry, hin, hchange⟩
      rw [← hchange] at heq
      rcases Slot.mk.inj heq with ⟨hname, hkey⟩
      rw [← hbuilt.1 entry hin, hkey]
      exact ⟨hname, rfl⟩
    · rcases List.mem_map.mp hdropped with ⟨companion, hin, hchange⟩
      rw [← hchange] at heq
      rcases Slot.mk.inj heq with ⟨hname, hkey⟩
      rw [← hbuilt.2 companion hin, hkey]
      exact ⟨hname, rfl⟩
  exact hne hkeys.1 hkeys.2

theorem leaves_unstage (k : Kernel) (ep' : EpochRef) :
    Kernel.Leaves ep hosted key k (k.unstage ep' other j) := by
  apply leaves_stageAll
  intro change hmem heq
  rcases List.mem_map.mp hmem with ⟨companion, hin, hchange⟩
  rw [← hchange] at heq
  rcases Slot.mk.inj heq with ⟨hname, hkey⟩
  apply hne hname
  rcases List.mem_cons.mp hin with hsource | hcompanion
  · exact PlaceFiles.ofSource_inj.mp (hsource.symm.trans hkey)
  · exact absurd (hkey ▸ hcompanion) Place.ofSource_not_companion

/-- The files of a map place change under another key. -/
theorem leaves_files (k : Kernel) {own : Files}
    (hown : forall key', key' ≠ j -> own.get (EntryKey.ofSource key') =
      (k.files other.name).get (EntryKey.ofSource key')) :
    Kernel.Leaves ep hosted key k
      { k with files := Kernel.setFiles k.files other.name own } := by
  refine ⟨Kernel.Works.of_same rfl rfl rfl rfl, Iff.rfl, rfl, ?_, Iff.rfl, rfl⟩
  unfold Kernel.published
  dsimp only
  split_ifs
  · unfold Kernel.setFiles
    by_cases hname : hosted.name = other.name
    · rw [hname, Function.update_self]
      exact hown key (fun heq => hne hname.symm heq.symm)
    · rw [Function.update_of_ne hname]
  · rfl

theorem leaves_track (hj : BelowRoot j) (k : Kernel) (file : FileInput) :
    Kernel.Leaves ep hosted key k (trackSource other j file k) := by
  refine ⟨Kernel.Works.track k other hj file, ?_, rfl, rfl, Iff.rfl, rfl⟩
  unfold Kernel.Tracks trackSource
  dsimp only
  by_cases hname : hosted.name = other.name
  · rw [hname, Function.update_self]
    cases k.sources other.name with
    | none => exact Iff.rfl
    | some source =>
        show (source.set (EntryKey.ofSource j) file).hasSource key = true <-> _
        rw [PlaceFiles.hasSource_set]
        constructor
        · intro hor
          rcases hor with heq | hold
          · exact absurd (PlaceFiles.ofSource_inj.mp heq).symm (hne hname.symm)
          · exact hold
        · exact Or.inr
  · rw [Function.update_of_ne hname]

theorem leaves_untrack (k : Kernel) :
    Kernel.Leaves ep hosted key k (k.untrack other j) := by
  refine ⟨Kernel.Works.untrack k other j, ?_, rfl, rfl, Iff.rfl, rfl⟩
  unfold Kernel.Tracks Kernel.untrack
  dsimp only
  by_cases hname : hosted.name = other.name
  · rw [hname, Function.update_self]
    cases k.sources other.name with
    | none => exact Iff.rfl
    | some source =>
        show (source.delete (EntryKey.ofSource j)).hasSource key = true <-> _
        rw [PlaceFiles.hasSource_delete]
        constructor
        · exact fun hand => hand.2
        · intro hold
          refine ⟨?_, hold⟩
          intro heq
          exact hne hname.symm (PlaceFiles.ofSource_inj.mp heq).symm
  · rw [Function.update_of_ne hname]

theorem leaves_schedule (hj : BelowRoot j) (k : Kernel) :
    Kernel.Leaves ep hosted key k (k.scheduleRecheck other j) := by
  have hworks := Kernel.Works.schedule k other hj
  unfold Kernel.scheduleRecheck at hworks ⊢
  split_ifs at hworks ⊢
  · exact Kernel.Leaves.refl k
  · refine ⟨hworks, Iff.rfl, rfl, rfl, Iff.rfl, ?_⟩
    show (OrderedMap.get _ _).isSome = (OrderedMap.get _ _).isSome
    rw [OrderedMap.get_set_ne]
    intro heq
    rcases Prod.mk.inj heq with ⟨hname, hkey⟩
    exact hne hname.symm hkey.symm

theorem leaves_cancel (k : Kernel) :
    Kernel.Leaves ep hosted key k (k.cancelRecheck other j) := by
  refine ⟨Kernel.Works.cancel k other j, Iff.rfl, rfl, rfl, Iff.rfl, ?_⟩
  show (OrderedMap.get _ _).isSome = (OrderedMap.get _ _).isSome
  unfold Kernel.cancelRecheck
  dsimp only
  rw [OrderedMap.get_delete_ne]
  intro heq
  rcases Prod.mk.inj heq with ⟨hname, hkey⟩
  exact hne hname.symm hkey.symm

theorem leaves_mark (k : Kernel) (ep' : EpochRef) :
    Kernel.Leaves ep hosted key k (k.markSeen ep' other.name j) := by
  have hepoch : (k.markSeen ep' other.name j).epoch ep =
      if ep = ep' then { k.epoch ep' with seen := (other.name, j) :: (k.epoch ep').seen }
      else k.epoch ep := by
    unfold Kernel.markSeen Kernel.epoch
    by_cases hep : ep = ep'
    · rw [if_pos hep, hep]
      dsimp only
      rw [OrderedMap.get_set_self]
      rfl
    · rw [if_neg hep]
      dsimp only
      rw [OrderedMap.get_set_ne _ _ hep]
  refine ⟨Kernel.Works.of_same rfl rfl rfl rfl, Iff.rfl, ?_, rfl, ?_, rfl⟩
  · rw [hepoch]
    by_cases hep : ep = ep'
    · rw [if_pos hep, hep]
    · rw [if_neg hep]
  · unfold Kernel.Marked
    rw [hepoch]
    by_cases hep : ep = ep'
    · rw [if_pos hep, hep, List.mem_cons]
      constructor
      · intro hor
        rcases hor with heq | hold
        · rcases Prod.mk.inj heq with ⟨hname, hkey⟩
          exact absurd hkey.symm (hne hname.symm)
        · exact hold
      · exact Or.inr
    · rw [if_neg hep]

theorem leaves_drop (k : Kernel) (ep' : EpochRef) :
    Kernel.Leaves ep hosted key k (k.dropSource ep' other j) := by
  have hcancelled : Kernel.Leaves ep hosted key k ((k.untrack other j).cancelRecheck other j) :=
    (leaves_untrack hne k).trans (leaves_cancel hne (k.untrack other j))
  unfold Kernel.dropSource
  dsimp only
  split_ifs
  · apply hcancelled.trans
    unfold Kernel.removeMap
    dsimp only
    split_ifs with hhas
    · apply leaves_files hne
      intro key' hkey
      show (MapStore.remove _ _ _).get _ = _
      rw [MapStore.get_remove, if_neg]
      intro hor
      rcases hor with heq | hcompanion
      · exact hkey (PlaceFiles.ofSource_inj.mp heq)
      · exact Place.ofSource_not_companion hcompanion
    · exact Kernel.Leaves.refl _
  · exact hcancelled.trans (leaves_unstage hne _ ep')

end Others

end SharedMemoryFs.Lifecycle
