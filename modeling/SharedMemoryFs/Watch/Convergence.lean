import SharedMemoryFs.Watch.Clearing

/-!
# What an epoch comes to

Over every order in which the jobs of an epoch go on: where an event gives reason to look
at a key, the place publishes under it what the disk has, or a recheck of it is due.  A
path that leads to something that is not cached is passed over, whatever was published
under its key.
-/

namespace SharedMemoryFs.Lifecycle

open Foundation

variable {config : Config} {strict : Bool}

/-!
# The flush
-/

section Flush

variable {slot : Slot} {change : Slot × Option PlaceFile}

theorem get_publishChange (files : PlaceName -> Files) :
    (Kernel.publishChange files change slot.place).get slot.key =
      if slot = change.1 then change.2.or ((files slot.place).get slot.key)
      else (files slot.place).get slot.key := by
  rcases change with ⟨⟨place, key⟩, entry⟩
  rcases slot with ⟨place', key'⟩
  unfold Kernel.publishChange Kernel.setFiles SabStore.publishEntry
  dsimp only
  by_cases hplace : place' = place
  · rw [hplace, Function.update_self]
    cases entry with
    | none =>
        simp
    | some file =>
        dsimp only
        rw [PlaceFiles.get_set]
        simp
  · have hne : ¬ (⟨place', key'⟩ : Slot) = ⟨place, key⟩ := fun heq => hplace (Slot.mk.inj heq).1
    rw [Function.update_of_ne hplace, if_neg hne]

theorem get_removeChange (files : PlaceName -> Files) :
    (Kernel.removeChange files change slot.place).get slot.key =
      if slot = change.1 ∧ change.2 = none then none else (files slot.place).get slot.key := by
  rcases change with ⟨⟨place, key⟩, entry⟩
  rcases slot with ⟨place', key'⟩
  unfold Kernel.removeChange Kernel.setFiles SabStore.removeEntry
  dsimp only
  by_cases hplace : place' = place
  · rw [hplace, Function.update_self]
    cases entry with
    | none =>
        dsimp only
        rw [PlaceFiles.get_delete]
        simp
    | some file =>
        simp
  · have hne : ¬ (⟨place', key'⟩ : Slot) = ⟨place, key⟩ := fun heq => hplace (Slot.mk.inj heq).1
    rw [Function.update_of_ne hplace, if_neg (fun hand => hne hand.1)]

theorem get_putChange (files : PlaceName -> Files) :
    (Kernel.putChange files change slot.place).get slot.key =
      if slot = change.1 then change.2 else (files slot.place).get slot.key := by
  unfold Kernel.putChange
  rw [get_removeChange, get_publishChange]
  by_cases hslot : slot = change.1
  · rw [if_pos hslot, if_pos hslot]
    cases change.2 with
    | none => exact if_pos ⟨hslot, rfl⟩
    | some file => exact if_neg (fun hand => by cases hand.2)
  · rw [if_neg hslot, if_neg hslot, if_neg (fun hand => hslot hand.1)]

/-- Changes of other slots. -/
theorem get_foldl_others (slot : Slot)
    {step : (PlaceName -> Files) -> Slot × Option PlaceFile -> PlaceName -> Files}
    (hstep : forall files change, slot ≠ change.1 ->
      (step files change slot.place).get slot.key = (files slot.place).get slot.key)
    {changes : Delta} (h : forall change, change ∈ changes -> slot ≠ change.1)
    (files : PlaceName -> Files) :
    (changes.foldl step files slot.place).get slot.key = (files slot.place).get slot.key := by
  induction changes generalizing files with
  | nil => rfl
  | cons change rest ih =>
      rw [List.foldl_cons, ih (fun change hmem => h change (List.mem_cons_of_mem _ hmem)),
        hstep files change (h change List.mem_cons_self)]

theorem get_apply_others {update : Delta} (h : forall change, change ∈ update -> slot ≠ change.1)
    (files : PlaceName -> Files) :
    (Kernel.apply files update slot.place).get slot.key = (files slot.place).get slot.key := by
  unfold Kernel.apply
  rw [get_foldl_others slot (fun files change hne => by
      rw [get_removeChange, if_neg (fun hand => hne hand.1)]) h,
    get_foldl_others slot (fun files change hne => by rw [get_publishChange, if_neg hne]) h]

theorem get_foldl_putChange {changes : Delta} (hnodup : (changes.map Prod.fst).Nodup)
    {entry : Option PlaceFile} (hmem : (slot, entry) ∈ changes) (files : PlaceName -> Files) :
    (changes.foldl Kernel.putChange files slot.place).get slot.key = entry := by
  induction changes generalizing files with
  | nil => cases hmem
  | cons first rest ih =>
      rw [List.foldl_cons]
      rw [List.map_cons, List.nodup_cons] at hnodup
      rcases List.mem_cons.mp hmem with heq | hrest
      · rw [← heq] at hnodup ⊢
        rw [get_foldl_others slot (fun files other hne => by rw [get_putChange, if_neg hne]),
          get_putChange, if_pos rfl]
        intro other hother hslot
        exact hnodup.1 (List.mem_map.mpr ⟨other, hother, hslot.symm⟩)
      · exact ih hnodup.2 hrest _

variable {k : Kernel} {ep : EpochRef} {hosted : HostedPlace} {key : Key}

theorem run_flush (hready : k.state = KernelState.ready) {index : PlaceName -> Files}
    (hcache : k.cache = some index) :
    (Async.run (flush ep) k).1 = k.commit index (k.epoch ep).changes.entries := by
  have hopen : ¬ k.state = KernelState.closed := by
    intro hclosed
    cases hclosed.symm.trans hready
  show (Async.run (ite (k.state = KernelState.closed) _ _ : Prog Unit) k).1 = _
  rw [if_neg hopen, hcache]
  rfl

/-- The flush publishes under a key what was upcoming. -/
theorem published_flush (hready : k.state = KernelState.ready) (hcached : k.cache.isSome = true)
    (hunstaged : hosted.provider = Provider.map ->
      (k.epoch ep).changes.get (sourceSlot hosted key) = none) :
    (((Async.run (flush ep) k).1.published hosted).get (EntryKey.ofSource key) =
      k.upcoming ep hosted key) ∧ (Async.run (flush ep) k).1.rechecks = k.rechecks := by
  rcases Option.isSome_iff_exists.mp hcached with ⟨index, hcache⟩
  rw [run_flush hready hcache]
  have hkeys : forall change, change ∈ (k.epoch ep).changes.entries ->
      (k.epoch ep).changes.get change.1 = some change.2 :=
    fun change hmem => OrderedMap.mem_entries_iff.mp hmem
  have hindex : ((k.epoch ep).changes.entries.foldl Kernel.putChange index hosted.name).get
      (EntryKey.ofSource key) = ((k.epoch ep).changes.get (sourceSlot hosted key)).getD
        ((index hosted.name).get (EntryKey.ofSource key)) := by
    cases hstaged : (k.epoch ep).changes.get (sourceSlot hosted key) with
    | some entry =>
        exact get_foldl_putChange (k.epoch ep).changes.nodup
          (OrderedMap.mem_entries_iff.mpr hstaged) index
    | none =>
        apply get_foldl_others (sourceSlot hosted key)
          (fun files other hne => by rw [get_putChange, if_neg hne])
        intro change hmem heq
        rw [heq] at hstaged
        cases hstaged.symm.trans (hkeys change hmem)
  have hfiles : hosted.provider = Provider.map ->
      (Kernel.apply k.files (Kernel.delta index (k.epoch ep).changes.entries) hosted.name).get
        (EntryKey.ofSource key) = (k.files hosted.name).get (EntryKey.ofSource key) := by
    intro hmap
    have hothers : forall change,
        change ∈ Kernel.delta index (k.epoch ep).changes.entries ->
        sourceSlot hosted key ≠ change.1 := by
      intro change hmem heq
      have hstaged := hkeys change (List.mem_filter.mp hmem).1
      rw [← heq, hunstaged hmap] at hstaged
      cases hstaged
    exact get_apply_others hothers k.files
  unfold Kernel.commit Kernel.upcoming Kernel.published
  dsimp only
  by_cases hmap : hosted.provider = Provider.map
  · rw [if_pos hmap, if_pos hmap, if_pos hmap]
    split_ifs
    · exact ⟨rfl, rfl⟩
    · exact ⟨hfiles hmap, rfl⟩
  · rw [if_neg hmap, if_neg hmap, if_neg hmap, hcache]
    split_ifs
    · exact ⟨hindex, rfl⟩
    · exact ⟨hindex, rfl⟩

end Flush

end SharedMemoryFs.Lifecycle
