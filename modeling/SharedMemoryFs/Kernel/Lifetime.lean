import SharedMemoryFs.Kernel.Preservation
import SharedMemoryFs.Kernel.Schedule

/-!
# No early reuse

Whatever a live thread can still reach owns its bytes.  A version that left the
index is reached through a thread that has not processed the update retiring it,
and then the update waits for that thread's ACK, or through a pin, and then its
record is held for the pin's thread.
-/

namespace SharedMemoryFs

open Foundation

/-- A file of the thread, or one a consumer pinned and did not release. -/
inductive Thread.Refers (t : Thread) (e : Extent) : Prop where
  | projected (slot : Slot) (file : File) :
      t.files.get slot = some file -> file.content.extent? = some e -> Refers t e
  | pinned (consumer : ConsumerId) (file : File) :
      t.pins.held.get consumer = some file -> file.content.extent? = some e -> Refers t e

def Snapshot.Refers (snapshot : Snapshot) (e : Extent) : Prop :=
  exists slot entry, snapshot.entries.get slot = some entry ∧ entry.extent? = some e

def Update.Refers (u : Update) (e : Extent) : Prop :=
  exists slot entry, (slot, entry) ∈ u.entries ∧ entry.extent? = some e

/-- The extent is within reach of the main thread or of a live link: of its
worker, of the snapshot handed to it, or of an update on its way to it. -/
inductive VfsKernel.Refers (k : VfsKernel) (e : Extent) : Prop where
  | main : k.main.Refers e -> Refers k e
  | worker (id : LinkId) (link : Link) (t : Thread) :
      k.links.get id = some link -> link.worker = Worker.attached t -> t.Refers e ->
      Refers k e
  | snapshot (id : LinkId) (link : Link) (snapshot : Snapshot) :
      k.links.get id = some link -> link.worker = Worker.handed snapshot ->
      snapshot.Refers e -> Refers k e
  | inFlight (id : LinkId) (link : Link) (u : Update) :
      k.links.get id = some link -> link.worker ≠ Worker.exited -> u ∈ link.down ->
      u.Refers e -> Refers k e

/-!
# Versions of the log
-/

theorem mem_base_index {k : VfsKernel} {slot : Slot} {entry : Entry} {e : Extent}
    (hget : k.cache.index.get slot = some entry) (he : entry.extent? = some e) :
    e ∈ k.base := by
  unfold VfsKernel.base
  exact Multiset.mem_add.mpr (Or.inl
    (OrderedMap.mem_total_iff.mpr ⟨slot, entry, hget, Entry.mem_extents.mpr he⟩))

theorem mem_base_retired {k : VfsKernel} {e : Extent} (h : e ∈ k.retirement.extents) :
    e ∈ k.base := by
  unfold VfsKernel.base
  exact Multiset.mem_add.mpr (Or.inr h)

theorem mem_owners_base {k : VfsKernel} {e : Extent} (h : e ∈ k.base) : e ∈ k.owners := by
  rw [owners_eq]
  simp only [Multiset.mem_add]
  exact Or.inl (Or.inl h)

/-- A version published at a point of the log the link has not passed is
published still, or its record waits for this link. -/
theorem VfsKernel.Sound.version_base {k : VfsKernel} {extra : Multiset Extent}
    (h : k.Sound extra) {id : LinkId} {link : Link} (hlink : k.links.get id = some link)
    {n : Nat} (hpassed : link.since + link.applied ≤ n) {index : Index}
    (hindex : k.history[n]? = some index) {slot : Slot} {entry : Entry} {e : Extent}
    (hget : index.get slot = some entry) (he : entry.extent? = some e) :
    e ∈ k.base := by
  have hle : n ≤ k.updates.length := by
    have hlt := (List.getElem?_eq_some_iff.mp hindex).1
    rw [h.log.length] at hlt
    omega
  -- On the number of updates after `n`; `frame` carries an untouched version on.
  induction hrest : k.updates.length - n generalizing n index with
  | zero =>
      have hn : n = k.updates.length := by omega
      rcases h.log.last with ⟨final, hfinal, hsame⟩
      rw [hn, hfinal] at hindex
      rw [← Option.some.inj hindex, hsame slot] at hget
      exact mem_base_index hget he
  | succ rest ih =>
      have hlt : n < k.updates.length := by omega
      have hu : k.updates[n]? = some k.updates[n] := List.getElem?_eq_getElem hlt
      rcases h.log.step hu with ⟨_, before, after, hbefore, hafter, hdelta⟩
      rw [hindex] at hbefore
      have hbefore : index = before := Option.some.inj hbefore
      subst hbefore
      by_cases htouched : slot ∈ (k.updates[n]).entries.map Prod.fst ∨
          slot ∈ (k.updates[n]).removals
      · rcases hdelta.complete htouched hget he with ⟨retireId, hretired⟩
        have hne : (k.updates[n]).retired ≠ [] := List.ne_nil_of_mem hretired
        rcases (h.links hlink).awaits hu hpassed hne with ⟨_, ack, _, hack, _⟩
        rcases h.log.listed hu hretired hack with
          ⟨before, old, hbefore, hold, record, hrecord, hentry, _⟩
        rw [hindex] at hbefore
        rw [← Option.some.inj hbefore, hget] at hold
        have hmem : e ∈ k.retirement.extents := by
          refine OrderedMap.mem_total_iff.mpr ⟨retireId, record, hrecord, ?_⟩
          rw [hentry, ← Option.some.inj hold]
          exact Entry.mem_extents.mpr he
        exact mem_base_retired hmem
      · rw [not_or] at htouched
        have hframe := hdelta.frame htouched.1 htouched.2
        rw [hget] at hframe
        exact ih (by omega) hafter hframe (by omega) (by omega)

theorem VfsKernel.Sound.record_base {k : VfsKernel} {id : RetireId} {entry : Entry}
    {updateId : UpdateId} (h : k.retirement.Has id entry updateId) {e : Extent}
    (he : entry.extent? = some e) : e ∈ k.base := by
  rcases h with ⟨record, hrecord, hentry, _⟩
  have hmem : e ∈ k.retirement.extents := by
    refine OrderedMap.mem_total_iff.mpr ⟨id, record, hrecord, ?_⟩
    rw [hentry]
    exact Entry.mem_extents.mpr he
  exact mem_base_retired hmem

/-- What a thread refers to: a version of the index it projects, or a version
bound to one of its pins. -/
theorem Thread.Refers.cases {t : Thread} {index : Index} {r : Retirement}
    {kept : RetireId -> UpdateId -> Prop} (hsound : t.Sound) (hprojects : t.Projects index)
    (hbound : Bound r t kept) {e : Extent} (h : t.Refers e) :
    (exists slot entry, index.get slot = some entry ∧ entry.extent? = some e) ∨
      (exists id entry updateId, r.Has id entry updateId ∧ entry.extent? = some e) := by
  have hprojected : forall {slot file}, t.files.get slot = some file ->
      file.content.extent? = some e ->
      exists slot entry, index.get slot = some entry ∧ entry.extent? = some e := by
    intro slot file hfile he
    have hview := hprojects.files slot
    rw [hfile, Option.map_some] at hview
    rcases Option.map_eq_some_iff.mp hview.symm with ⟨entry, hget, hentry⟩
    refine ⟨slot, entry, hget, ?_⟩
    rw [← extent_view, hentry]
    exact he
  cases h with
  | projected slot file hfile he => exact Or.inl (hprojected hfile he)
  | pinned consumer file hheld he =>
      rcases hsound.pinned (hsound.pins.held_counted hheld) with
        ⟨slot, hfile⟩ | ⟨id, hid⟩ | hnone
      · exact Or.inl (hprojected hfile he)
      · rcases hbound file id hid with ⟨entry, updateId, hview, hhas, _⟩
        refine Or.inr ⟨id, entry, updateId, hhas, ?_⟩
        rw [← extent_view, hview]
        exact he
      · rw [hnone] at he
        cases he

theorem VfsKernel.Sound.main_base {k : VfsKernel} {extra : Multiset Extent}
    (h : k.Sound extra) {e : Extent} (href : k.main.Refers e) : e ∈ k.base := by
  rcases href.cases h.main.sound h.main.projects h.main.bound with
    ⟨slot, entry, hget, he⟩ | ⟨id, entry, updateId, hhas, he⟩
  · exact mem_base_index hget he
  · exact record_base hhas he

theorem VfsKernel.Sound.attached {k : VfsKernel} {extra : Multiset Extent}
    (h : k.Sound extra) {id : LinkId} {link : Link} {t : Thread}
    (hlink : k.links.get id = some link) (hworker : link.worker = Worker.attached t) :
    AttachedSound k.history k.updates k.retirement id link t := by
  have hsound := (h.links hlink).worker
  unfold WorkerSound at hsound
  rw [hworker] at hsound
  exact hsound

theorem VfsKernel.Sound.handed {k : VfsKernel} {extra : Multiset Extent}
    (h : k.Sound extra) {id : LinkId} {link : Link} {snapshot : Snapshot}
    (hlink : k.links.get id = some link) (hworker : link.worker = Worker.handed snapshot) :
    HandedSound k.history link snapshot := by
  have hsound := (h.links hlink).worker
  unfold WorkerSound at hsound
  rw [hworker] at hsound
  exact hsound

theorem VfsKernel.Sound.worker_base {k : VfsKernel} {extra : Multiset Extent}
    (h : k.Sound extra) {id : LinkId} {link : Link} {t : Thread}
    (hlink : k.links.get id = some link) (hworker : link.worker = Worker.attached t)
    {e : Extent} (href : t.Refers e) : e ∈ k.base := by
  have hattached := h.attached hlink hworker
  rcases hattached.projects with ⟨index, hindex, hprojects⟩
  rcases href.cases hattached.sound hprojects hattached.bound with
    ⟨slot, entry, hget, he⟩ | ⟨id, entry, updateId, hhas, he⟩
  · exact h.version_base hlink (Nat.le_refl _) hindex hget he
  · exact record_base hhas he

theorem VfsKernel.Sound.snapshot_base {k : VfsKernel} {extra : Multiset Extent}
    (h : k.Sound extra) {id : LinkId} {link : Link} {snapshot : Snapshot}
    (hlink : k.links.get id = some link) (hworker : link.worker = Worker.handed snapshot)
    {e : Extent} (href : snapshot.Refers e) : e ∈ k.base := by
  have hhanded := h.handed hlink hworker
  rcases hhanded.index with ⟨index, hindex, hsame⟩
  rcases href with ⟨slot, entry, hget, he⟩
  refine h.version_base hlink ?_ hindex ((hsame slot).trans hget) he
  rw [hhanded.applied, Nat.add_zero]

theorem VfsKernel.Sound.inFlight_base {k : VfsKernel} {extra : Multiset Extent}
    (h : k.Sound extra) {id : LinkId} {link : Link} (hlink : k.links.get id = some link)
    {u : Update} (hu : u ∈ link.down) {e : Extent} (href : u.Refers e) :
    e ∈ k.base := by
  have hsound := h.links hlink
  rw [hsound.down] at hu
  rcases List.getElem_of_mem hu with ⟨i, hi, hith⟩
  have hn : k.updates[link.since + link.applied + i]? = some u := by
    rw [← List.getElem?_drop, List.getElem?_eq_getElem hi, hith]
  rcases h.log.step hn with ⟨_, before, after, _, hafter, hdelta⟩
  rcases href with ⟨slot, entry, hmem, he⟩
  exact h.version_base hlink (by omega) hafter (hdelta.entries hmem) he

theorem VfsKernel.Sound.refers_base {k : VfsKernel} {extra : Multiset Extent}
    (h : k.Sound extra) {e : Extent} (href : k.Refers e) : e ∈ k.base := by
  cases href with
  | main href => exact h.main_base href
  | worker id link t hlink hworker href => exact h.worker_base hlink hworker href
  | snapshot id link snapshot hlink hworker href =>
      exact h.snapshot_base hlink hworker href
  | inFlight id link u hlink hworker hu href => exact h.inFlight_base hlink hu href

theorem VfsKernel.Sound.refers_owned {k : VfsKernel} {extra : Multiset Extent}
    (h : k.Sound extra) {e : Extent} (href : k.Refers e) : e ∈ k.owners :=
  mem_owners_base (h.refers_base href)

/-!
# Main results
-/

/-- Bytes somebody can reach are not free, and no allocation hands them out. -/
theorem refers_not_reused {fileExt : Key -> Ext} {k : VfsKernel}
    (h : NoisyReachable fileExt k) {e : Extent} (href : k.Refers e) :
    (forall c, e.Covers c -> k.cache.registry.Allocated c) ∧
      forall size noGrow new registry,
        k.cache.registry.allocate size noGrow = some (new, registry) ->
        forall c, e.Covers c -> ¬ new.Covers c := by
  have howned := h.sound.owned
  have hmem : e ∈ k.owners + 0 := by
    rw [add_zero]
    exact h.sound.refers_owned href
  constructor
  · intro c hc
    exact howned.allocated hmem hc
  · intro size noGrow new registry halloc c hc
    exact howned.allocate_disjoint hmem halloc hc

/-- The worker of the example still reads the version it pinned. -/
theorem refers_not_reused_demo :
    (forall c, (⟨1, 0, 2⟩ : Extent).Covers c ->
      VfsKernel.demo.cache.registry.Allocated c) ∧
      forall size noGrow new registry,
        VfsKernel.demo.cache.registry.allocate size noGrow = some (new, registry) ->
        forall c, (⟨1, 0, 2⟩ : Extent).Covers c -> ¬ new.Covers c :=
  refers_not_reused VfsKernel.demo_reachable.noisy
    (VfsKernel.Refers.worker 1 _ _ rfl rfl (Thread.Refers.pinned 0 _ rfl rfl))

/-- Every allocated byte has one owner: a published entry, a retired version, a
staged entry of an open epoch, or an entry of a publication in progress. -/
theorem extents_conserved {fileExt : Key -> Ext} {k : VfsKernel}
    (h : NoisyReachable fileExt k) :
    ExactCover Extent.Covers k.cache.registry.Allocated
        (k.cache.index.total Entry.extents + k.retirement.extents +
          k.epochs.total Changes.extents + k.tasks.total Task.extents) ∧
      forall e, e ∈ k.owners -> 0 < e.length := by
  have howned := h.sound.owned
  rw [add_zero] at howned
  exact ⟨howned.exact_, howned.pos⟩

theorem extents_conserved_demo :
    ExactCover Extent.Covers VfsKernel.demo.cache.registry.Allocated
        (VfsKernel.demo.cache.index.total Entry.extents +
          VfsKernel.demo.retirement.extents +
          VfsKernel.demo.epochs.total Changes.extents +
          VfsKernel.demo.tasks.total Task.extents) ∧
      forall e, e ∈ VfsKernel.demo.owners -> 0 < e.length :=
  extents_conserved VfsKernel.demo_reachable.noisy

end SharedMemoryFs
