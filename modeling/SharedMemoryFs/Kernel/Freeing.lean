import SharedMemoryFs.Cache.Compaction
import SharedMemoryFs.Kernel.Preservation
import SharedMemoryFs.Kernel.Schedule

/-!
# Freeing comes to an end

{lit}`#settle` frees and compacts, a compaction publishes its moves, and without a
linked worker the publication settles what it replaced, which compacts again.  Each
relocation closes the segment it empties and opens none, so the open segments bound
the recursion.
-/

namespace SharedMemoryFs

open Foundation

/-!
# Open segments
-/

/-- The segments a compaction counts: in use and not closed. -/
def SegmentRegistry.openSegments (r : SegmentRegistry) : Finset SegmentId :=
  ((r.spaces.entries.filter
    (fun entry => decide (entry.2.tail ≠ 0 ∧ entry.1 ∉ r.closed))).map Prod.fst).toFinset

namespace SegmentRegistry

variable {r r' : SegmentRegistry} {id : SegmentId}

/-- Every registered segment is in use, so the open ones are read off the pool. -/
theorem Sound.mem_openSegments (h : r.Sound) : id ∈ r.openSegments <->
    (id ∈ r.pool.segments ∧ id ∉ r.pool.emptySegmentIds) ∧ id ∉ r.closed := by
  unfold openSegments
  rw [List.mem_toFinset, List.mem_map, ← h.registered id]
  constructor
  · intro hopen
    rcases hopen with ⟨entry, hmem, rfl⟩
    rcases List.mem_filter.mp hmem with ⟨hentry, hcond⟩
    exact ⟨⟨entry.2, OrderedMap.mem_entries_iff.mp hentry⟩, (of_decide_eq_true hcond).2⟩
  · intro hopen
    rcases hopen with ⟨⟨space, hget⟩, hclosed⟩
    refine ⟨(id, space), List.mem_filter.mpr ⟨OrderedMap.mem_entries_iff.mpr hget, ?_⟩, rfl⟩
    apply decide_eq_true
    refine ⟨?_, hclosed⟩
    intro htail
    rcases h.live hget with ⟨b, hb, _⟩
    have hb : b < space.tail := hb
    rw [htail] at hb
    exact Nat.not_lt_zero b hb

theorem openSegments_le_size (r : SegmentRegistry) :
    r.openSegments.card ≤ r.spaces.size := by
  unfold openSegments
  refine (List.toFinset_card_le _).trans ?_
  rw [List.length_map]
  exact List.length_filter_le _ _

/-- Freeing bytes opens no segment. -/
theorem openSegments_releaseExtent (h : r.Sound) (e : Extent)
    (h' : (r.releaseExtent e).Sound) :
    (r.releaseExtent e).openSegments ⊆ r.openSegments := by
  intro id hid
  rw [h'.mem_openSegments] at hid
  rw [h.mem_openSegments]
  rcases releaseExtent_cases r e with heq | heq | ⟨hmem, heq⟩
  · rw [heq] at hid
    exact hid
  · rw [heq, release_pool, release_closed] at hid
    exact hid
  · rw [heq] at hid
    have hpool : id ∈ (r.pool.freeSegment e.segmentId).segments ∧
        id ∉ (r.pool.freeSegment e.segmentId).emptySegmentIds := hid.1
    have hclosed : id ∉ (r.release e).closed.erase e.segmentId := hid.2
    unfold Pool.freeSegment at hpool
    rw [if_pos hmem] at hpool
    rw [release_closed] at hclosed
    have hempty := hpool.2
    rw [List.mem_append, not_or] at hempty
    refine ⟨⟨hpool.1, hempty.1⟩, ?_⟩
    intro hin
    apply hclosed
    refine Finset.mem_erase.mpr ⟨?_, hin⟩
    intro hsame
    exact hempty.2 (List.mem_singleton.mpr hsame)

end SegmentRegistry

/-!
# Published files
-/

/-- The bytes of an entry, or its path when it was left on disk. -/
def Entry.dataIn (mem : Memory) (entry : Entry) : Option String ⊕ Bytes :=
  match entry.kind with
  | EntryKind.shared segmentId offset length =>
      Sum.inr (readBytes mem ⟨segmentId, offset, length⟩)
  | EntryKind.disk path => Sum.inl path

structure PublishedFile where
  stat : Stat
  metadata : Option Cloneable
  scriptOptions : Option Cloneable
  data : Option String ⊕ Bytes
deriving DecidableEq

def Entry.fileIn (mem : Memory) (entry : Entry) : PublishedFile :=
  { stat := entry.stat
    metadata := entry.metadata
    scriptOptions := entry.scriptOptions
    data := entry.dataIn mem }

/-- The file published under {lit}`slot`, with the bytes its segment holds now. -/
def FilesystemCache.file (c : FilesystemCache) (slot : Slot) : Option PublishedFile :=
  (c.index.get slot).map (Entry.fileIn c.mem)

theorem fileIn_congr {mem mem' : Memory} {entry : Entry}
    (h : forall e, entry.extent? = some e -> readBytes mem' e = readBytes mem e) :
    entry.fileIn mem' = entry.fileIn mem := by
  have hdata : entry.dataIn mem' = entry.dataIn mem := by
    unfold Entry.extent? at h
    unfold Entry.dataIn
    cases hkind : entry.kind with
    | disk path => rfl
    | shared segmentId offset length =>
        rw [hkind] at h
        apply congrArg Sum.inr
        by_cases hpos : 0 < length
        · exact h _ (if_pos hpos)
        · have hzero : length = 0 := Nat.eq_zero_of_not_pos hpos
          rw [hzero]
          rfl
  unfold Entry.fileIn
  rw [hdata]

/-- A move carries its entry's file along. -/
theorem FilesystemCache.MoveSpec.fileIn {c : FilesystemCache} {mem' : Memory} {move : Item}
    (h : MoveSpec c mem' move) :
    some (move.entry.fileIn mem') = c.file move.slot := by
  rcases h.published with ⟨old, e, hget, he, hentry, hbytes, _⟩
  have hold : old.dataIn c.mem = Sum.inr (readBytes c.mem e) := by
    unfold Entry.extent? at he
    unfold Entry.dataIn
    cases hkind : old.kind with
    | disk path =>
        rw [hkind] at he
        cases he
    | shared segmentId offset length =>
        simp only [hkind] at he
        split_ifs at he
        rw [← Option.some.inj he]
  unfold FilesystemCache.file
  rw [hget, hentry]
  show some (PublishedFile.mk old.stat old.metadata old.scriptOptions
    (Sum.inr (readBytes mem' move.extent))) = some (old.fileIn c.mem)
  rw [hbytes, ← hold]
  rfl

/-!
# The recursion
-/

-- {lit}`#settle`, {lit}`#compact` and {lit}`#flush` with {lit}`#track`: which call
-- returns, after how many relocations, and where it leaves the kernel.
mutual

inductive Settles : VfsKernel -> List RetireId -> Nat -> VfsKernel -> Prop where
  | kept (k : VfsKernel) (ids : List RetireId) :
      (k.freeSettled ids).2 = false -> Settles k ids 0 (k.freeSettled ids).1
  | freed (k : VfsKernel) (ids : List RetireId) (n : Nat) (k' : VfsKernel) :
      (k.freeSettled ids).2 = true -> Compacts (k.freeSettled ids).1 n k' ->
      Settles k ids n k'

inductive Compacts : VfsKernel -> Nat -> VfsKernel -> Prop where
  | stays (k : VfsKernel) (cache : FilesystemCache) :
      k.cache.compact k.threshold = (cache, none) -> Compacts k 0 { k with cache := cache }
  | relocates (k : VfsKernel) (cache : FilesystemCache) (moves : List FilesystemCache.Item)
      (n : Nat) (k' : VfsKernel) :
      k.cache.compact k.threshold = (cache, some moves) ->
      Flushes { k with cache := cache }
        (moves.map (fun move => (move.slot, some move.entry))) n k' ->
      Compacts k (n + 1) k'

inductive Flushes : VfsKernel -> List (Slot × Option Entry) -> Nat -> VfsKernel -> Prop where
  | unchanged (k : VfsKernel) (changes : List (Slot × Option Entry)) :
      ((commit k.cache changes).2.entries.isEmpty &&
        (commit k.cache changes).2.removals.isEmpty) = true ->
      Flushes k changes 0 { k with cache := (commit k.cache changes).1 }
  | announces (k : VfsKernel) (changes : List (Slot × Option Entry)) (n : Nat)
      (k' : VfsKernel) :
      ((commit k.cache changes).2.entries.isEmpty &&
        (commit k.cache changes).2.removals.isEmpty) = false ->
      Settles (k.announce (commit k.cache changes).1 (commit k.cache changes).2).1
        (k.announce (commit k.cache changes).1 (commit k.cache changes).2).2 n k' ->
      Flushes k changes n k'

end

/-!
# One round
-/

theorem freeAll_openSegments {c : FilesystemCache} {live : Multiset Extent}
    {entries : List Entry} (h : c.registry.Owned (live + listExtents entries)) :
    (freeAll c entries).registry.openSegments ⊆ c.registry.openSegments := by
  induction entries generalizing c with
  | nil => exact Finset.Subset.refl _
  | cons entry rest ih =>
      have hsplit : live + listExtents (entry :: rest) =
          live + listExtents rest + entry.extents := by
        unfold listExtents
        rw [List.map_cons, List.sum_cons]
        abel
      rw [hsplit] at h
      have hfree := FilesystemCache.owned_free h
      refine (ih hfree).trans ?_
      unfold FilesystemCache.free at hfree ⊢
      cases hextent : entry.extent? with
      | none => exact Finset.Subset.refl _
      | some e =>
          simp only [hextent] at hfree ⊢
          exact SegmentRegistry.openSegments_releaseExtent h.sound e hfree.sound

theorem commit_registry {c : FilesystemCache} {moves : List FilesystemCache.Item}
    (h : forall move, move ∈ moves -> exists e, move.entry.extent? = some e ∧
      e.segmentId ∉ c.registry.closed) :
    (commit c (moves.map (fun move => (move.slot, some move.entry)))).1.registry =
      c.registry := by
  induction moves generalizing c with
  | nil => rfl
  | cons move rest ih =>
      have hput : (c.put move.slot move.entry).1.registry = c.registry := by
        rcases h move List.mem_cons_self with ⟨e, he, hopen⟩
        unfold Entry.extent? at he
        unfold FilesystemCache.put
        cases hkind : move.entry.kind with
        | disk path => rfl
        | shared segmentId offset length =>
            simp only [hkind] at he
            split_ifs at he
            rw [← Option.some.inj he] at hopen
            show { c.registry with closed := c.registry.closed.erase segmentId } = c.registry
            rw [Finset.erase_eq_of_notMem hopen]
      show (commit (c.put move.slot move.entry).1 _).1.registry = c.registry
      rw [ih, hput]
      intro m hm
      rw [hput]
      exact h m (List.mem_cons_of_mem move hm)

namespace FilesystemCache

variable {c c' : FilesystemCache} {live : Multiset Extent} {threshold : ℚ} {moves : List Item}

/-- The search counts the open segments. -/
theorem count_considered (r : SegmentRegistry) (entries : List (SegmentId × SegmentSpace))
    (best : Candidate) :
    (entries.foldl (considerSegment r) best).count = best.count +
      (entries.filter
        (fun entry => decide (entry.2.tail ≠ 0 ∧ entry.1 ∉ r.closed))).length := by
  induction entries generalizing best with
  | nil => rfl
  | cons entry rest ih =>
      rw [List.foldl_cons, ih]
      by_cases hskip : entry.2.tail = 0 ∨ entry.1 ∈ r.closed
      · have hshut : ¬ (entry.2.tail ≠ 0 ∧ entry.1 ∉ r.closed) := by
          intro hopen
          exact hskip.elim hopen.1 hopen.2
        rw [List.filter_cons_of_neg (by simpa using hshut)]
        unfold considerSegment
        rw [if_pos hskip]
      · have hopen : entry.2.tail ≠ 0 ∧ entry.1 ∉ r.closed := not_or.mp hskip
        have hcount : (considerSegment r best entry).count = best.count + 1 := by
          unfold considerSegment
          rw [if_neg hskip]
          dsimp only
          split_ifs <;> rfl
        rw [List.filter_cons_of_pos (by simpa using hopen), List.length_cons, hcount]
        omega

theorem two_le_openSegments {r : SegmentRegistry} {target : SegmentId}
    (h : compactTarget r threshold = some target) : 2 ≤ r.openSegments.card := by
  have hcard : r.openSegments.card = (r.spaces.entries.filter
      (fun entry => decide (entry.2.tail ≠ 0 ∧ entry.1 ∉ r.closed))).length := by
    unfold SegmentRegistry.openSegments
    rw [List.toFinset_card_of_nodup, List.length_map]
    exact r.spaces.nodup.sublist (List.filter_sublist.map Prod.fst)
  have hcount : _ = 0 + _ := count_considered r r.spaces.entries ⟨0, threshold, none⟩
  unfold compactTarget at h
  dsimp only at h
  split_ifs at h with htwo
  rw [hcard]
  omega

/-- A relocation needs two open segments and closes one of them. -/
theorem compact_closes (h : c.registry.Owned live)
    (hcompact : c.compact threshold = (c', some moves)) :
    2 ≤ c.registry.openSegments.card ∧
      c'.registry.openSegments.card < c.registry.openSegments.card := by
  have hspec := compact_spec h threshold
  rw [hcompact] at hspec
  have hsound := (hspec.fits moves rfl).1.sound
  rcases compact_plan h hcompact with ⟨target, hplan⟩
  constructor
  · rcases compact_eq c threshold with heq | ⟨target', htarget, _, _⟩
    · rw [hcompact] at heq
      cases heq
    · exact two_le_openSegments htarget
  · apply Finset.card_lt_card
    have hsub : forall id, id ∈ c'.registry.openSegments ->
        id ∈ c.registry.openSegments ∧ id ≠ target := by
      intro id hid
      rw [hsound.mem_openSegments, hplan.pool, hplan.closed, Finset.mem_insert, not_or] at hid
      exact ⟨h.sound.mem_openSegments.mpr ⟨hid.1, hid.2.2⟩, hid.2.1⟩
    rw [Finset.ssubset_iff_of_subset (fun id hid => (hsub id hid).1)]
    refine ⟨target, ?_, fun hid => (hsub target hid).2 rfl⟩
    rw [h.sound.mem_openSegments]
    exact ⟨(h.sound.registered target).mp hplan.spec.registered, hplan.spec.open_⟩

/-- Every published file survives a compaction that found no plan. -/
theorem compact_none_file (h : c.registry.Owned live)
    (hlive : forall slot entry e, c.index.get slot = some entry -> entry.extent? = some e ->
      e ∈ live)
    (hcompact : c.compact threshold = (c', none)) (slot : Slot) : c'.file slot = c.file slot := by
  have hspec := compact_spec h threshold
  rw [hcompact] at hspec
  have hindex : c'.index = c.index := hspec.index
  unfold file
  rw [hindex]
  cases hget : c.index.get slot with
  | none => rfl
  | some entry =>
      apply congrArg some
      apply fileIn_congr
      intro e he
      exact hspec.agree e (hlive slot entry e hget he)

/-- Every published file survives a relocation, once its moves are published. -/
theorem compact_some_file (h : c.registry.Owned live)
    (hlive : forall slot entry e, c.index.get slot = some entry -> entry.extent? = some e ->
      e ∈ live)
    (hcompact : c.compact threshold = (c', some moves)) (slot : Slot) :
    (commit c' (moves.map (fun move => (move.slot, some move.entry)))).1.file slot =
      c.file slot := by
  have hspec := compact_spec h threshold
  rw [hcompact] at hspec
  have hindex : c'.index = c.index := hspec.index
  rcases hspec.fits moves rfl with ⟨_, hnodup, hmoves⟩
  have hslots : (moves.map (fun move => (move.slot, some move.entry))).map Prod.fst =
      moves.map Item.slot := by
    rw [List.map_map]
    rfl
  have hcommit := commit_spec (c := c') (hslots.symm ▸ hnodup)
  by_cases hin : slot ∈ moves.map Item.slot
  · rcases List.mem_map.mp hin with ⟨move, hmove, rfl⟩
    rw [← (hmoves move hmove).fileIn]
    unfold file
    rw [hcommit.changed (List.mem_map.mpr ⟨move, hmove, rfl⟩), hcommit.mem]
    rfl
  · rw [← hslots] at hin
    unfold file
    rw [hcommit.frame hin, hcommit.mem, hindex]
    cases hget : c.index.get slot with
    | none => rfl
    | some entry =>
        apply congrArg some
        apply fileIn_congr
        intro e he
        exact hspec.agree e (hlive slot entry e hget he)

end FilesystemCache

/-!
# The whole recursion
-/

namespace VfsKernel

variable {k : VfsKernel} {extra : Multiset Extent} {ids : List RetireId}

theorem freeSettled_openSegments (h : k.Sound extra) (ids : List RetireId) :
    (k.freeSettled ids).1.cache.registry.openSegments ⊆ k.cache.registry.openSegments := by
  have howned := h.owned
  unfold owners at howned
  rw [(Retirement.sweep_spec k.retirement ids).extents] at howned
  have hsplit : k.cache.registry.Owned (k.cache.index.total Entry.extents +
      (k.retirement.sweep ids).1.extents + k.epochs.total Changes.extents +
        k.tasks.total Task.extents + extra + listExtents (k.retirement.sweep ids).2) := by
    unfold listExtents
    convert howned using 1
    abel
  exact freeAll_openSegments hsplit

theorem freeSettled_file (k : VfsKernel) (ids : List RetireId) (slot : Slot) :
    (k.freeSettled ids).1.cache.file slot = k.cache.file slot := by
  show (freeAll k.cache (k.retirement.sweep ids).2).file slot = _
  unfold FilesystemCache.file
  rw [freeAll_index, freeAll_mem]

theorem Sound.published (h : k.Sound extra) (slot : Slot) (entry : Entry) (e : Extent)
    (hget : k.cache.index.get slot = some entry) (he : entry.extent? = some e) :
    e ∈ k.owners + extra :=
  Multiset.mem_add.mpr (Or.inl (mem_owners_index hget he))

/-- A compaction that found no plan. -/
theorem compacts_stays (settle : VfsKernel -> List RetireId -> VfsKernel) (h : k.Sound extra)
    {cache : FilesystemCache} (hcompact : k.cache.compact k.threshold = (cache, none)) :
    Compacts k 0 (k.compact settle) ∧
      forall slot, (k.compact settle).cache.file slot = k.cache.file slot := by
  have heq : k.compact settle = { k with cache := cache } := by
    unfold VfsKernel.compact
    rw [hcompact]
  rw [heq]
  exact ⟨Compacts.stays k cache hcompact,
    FilesystemCache.compact_none_file h.owned h.published hcompact⟩

/-- A relocation leaves fewer open segments to the calls behind it. -/
theorem compacts_relocates {settle : VfsKernel -> List RetireId -> VfsKernel}
    (h : k.Sound extra) {cache : FilesystemCache} {moves : List FilesystemCache.Item}
    (hcompact : k.cache.compact k.threshold = (cache, some moves))
    (hsettle : forall (k' : VfsKernel) (ids : List RetireId), k'.Sound extra ->
      k'.cache.registry.openSegments.card < k.cache.registry.openSegments.card ->
        exists n, Settles k' ids n (settle k' ids) ∧
          (0 < n -> n < k'.cache.registry.openSegments.card) ∧
          forall slot, (settle k' ids).cache.file slot = k'.cache.file slot) :
    exists n, Compacts k n (k.compact settle) ∧
      n < k.cache.registry.openSegments.card ∧
      forall slot, (k.compact settle).cache.file slot = k.cache.file slot := by
  have hspec := FilesystemCache.compact_spec h.owned k.threshold
  rw [hcompact] at hspec
  rcases hspec.fits moves rfl with ⟨howned, hnodup, hmoves⟩
  rcases FilesystemCache.compact_closes h.owned hcompact with ⟨htwo, hless⟩
  rcases FilesystemCache.compact_plan h.owned hcompact with ⟨target, hplan⟩
  have hfile := FilesystemCache.compact_some_file h.owned h.published hcompact
  have heq : k.compact settle = VfsKernel.flush settle { k with cache := cache }
      (moves.map (fun move => (move.slot, some move.entry))) := by
    unfold VfsKernel.compact
    rw [hcompact]
  have hregistry : (commit cache (moves.map
      (fun move => (move.slot, some move.entry)))).1.registry = cache.registry := by
    apply commit_registry
    intro move hmove
    refine ⟨move.extent, (hmoves move hmove).extent, ?_⟩
    rw [hplan.closed, Finset.mem_insert, not_or]
    exact hplan.outside move hmove
  have hslots : (moves.map (fun move => (move.slot, some move.entry))).map Prod.fst =
      moves.map FilesystemCache.Item.slot := by
    rw [List.map_map]
    rfl
  have hsound : ({ k with cache := cache } : VfsKernel).Sound
      (stagedExtents (moves.map (fun move => (move.slot, some move.entry))) + extra) := by
    apply h.withCache (fun slot => congrArg (fun index => index.get slot) hspec.index)
    have howners : ({ k with cache := cache } : VfsKernel).owners = k.owners := by
      unfold owners
      rw [show cache.index = k.cache.index from hspec.index]
    rw [howners, stagedExtents_moves hmoves, ← add_assoc, add_right_comm]
    exact howned
  rw [heq]
  unfold VfsKernel.flush
  by_cases hempty : ((commit cache (moves.map
      (fun move => (move.slot, some move.entry)))).2.entries.isEmpty &&
        (commit cache (moves.map
          (fun move => (move.slot, some move.entry)))).2.removals.isEmpty) = true
  · dsimp only
    rw [if_pos hempty]
    exact ⟨1, Compacts.relocates k cache moves 0 _ hcompact (Flushes.unchanged _ _ hempty),
      htwo, hfile⟩
  · dsimp only
    rw [if_neg hempty]
    have hannounced := announce_sound hsound (hslots.symm ▸ hnodup)
    rcases hsettle _ (VfsKernel.announce { k with cache := cache }
        (commit cache (moves.map (fun move => (move.slot, some move.entry)))).1
        (commit cache (moves.map (fun move => (move.slot, some move.entry)))).2).2 hannounced
      (hregistry.symm ▸ hless) with ⟨n, hn, hbound, hkept⟩
    have hcard : (VfsKernel.announce { k with cache := cache }
        (commit cache (moves.map (fun move => (move.slot, some move.entry)))).1
        (commit cache (moves.map
          (fun move => (move.slot, some move.entry)))).2).1.cache.registry = cache.registry :=
      hregistry
    rw [hcard] at hbound
    refine ⟨n + 1, Compacts.relocates k cache moves n _ hcompact
      (Flushes.announces _ _ n _ (Bool.eq_false_of_not_eq_true hempty) hn), by omega, ?_⟩
    intro slot
    exact (hkept slot).trans (hfile slot)

/-- With as much fuel as there are open segments the recursion returns. -/
theorem settles_within (fuel : Nat) : forall (k : VfsKernel) (ids : List RetireId),
    k.Sound extra -> k.cache.registry.openSegments.card ≤ fuel ->
      exists n, Settles k ids n (settleWithin fuel k ids) ∧
        (0 < n -> n < k.cache.registry.openSegments.card) ∧
        forall slot, (settleWithin fuel k ids).cache.file slot = k.cache.file slot := by
  induction fuel with
  | zero =>
      intro k ids h hfuel
      have hfreed := freeSettled_sound h ids
      have hopen := Finset.card_le_card (freeSettled_openSegments h ids)
      show exists n, Settles k ids n (k.freeSettled ids).1 ∧ _ ∧
        forall slot, (k.freeSettled ids).1.cache.file slot = k.cache.file slot
      cases hany : (k.freeSettled ids).2 with
      | false =>
          exact ⟨0, Settles.kept k ids hany, fun hpos => absurd hpos (Nat.lt_irrefl 0),
            freeSettled_file k ids⟩
      | true =>
          -- no segment is open, so the compaction finds no target
          have hnone : (k.freeSettled ids).1.cache.compact (k.freeSettled ids).1.threshold =
              ((k.freeSettled ids).1.cache, none) := by
            rcases FilesystemCache.compact_eq (k.freeSettled ids).1.cache
              (k.freeSettled ids).1.threshold with heq | ⟨target, htarget, _, _⟩
            · exact heq
            · have htwo := FilesystemCache.two_le_openSegments htarget
              omega
          exact ⟨0, Settles.freed k ids 0 _ hany (Compacts.stays _ _ hnone),
            fun hpos => absurd hpos (Nat.lt_irrefl 0), freeSettled_file k ids⟩
  | succ fuel ih =>
      intro k ids h hfuel
      have hfreed := freeSettled_sound h ids
      have hopen := Finset.card_le_card (freeSettled_openSegments h ids)
      unfold settleWithin
      dsimp only
      cases hany : (k.freeSettled ids).2 with
      | false =>
          exact ⟨0, Settles.kept k ids hany, fun hpos => absurd hpos (Nat.lt_irrefl 0),
            freeSettled_file k ids⟩
      | true =>
          rw [if_pos rfl]
          rcases hresult : (k.freeSettled ids).1.cache.compact
            (k.freeSettled ids).1.threshold with ⟨cache, _ | moves⟩
          · rcases compacts_stays (settleWithin fuel) hfreed hresult with ⟨hstays, hfile⟩
            exact ⟨0, Settles.freed k ids 0 _ hany hstays,
              fun hpos => absurd hpos (Nat.lt_irrefl 0),
              fun slot => (hfile slot).trans (freeSettled_file k ids slot)⟩
          · rcases compacts_relocates hfreed hresult
              (fun k' ids' hk' hless => ih k' ids' hk' (by omega)) with ⟨n, hn, hbound, hfile⟩
            exact ⟨n, Settles.freed k ids n _ hany hn, fun _ => Nat.lt_of_lt_of_le hbound hopen,
              fun slot => (hfile slot).trans (freeSettled_file k ids slot)⟩

/-- {lit}`#settle` returns, in an intermediate state of a step as well. -/
theorem Sound.settles (h : k.Sound extra) (ids : List RetireId) :
    exists n, Settles k ids n (k.settle ids) ∧
      (0 < n -> n < k.cache.registry.openSegments.card) ∧
      forall slot, (k.settle ids).cache.file slot = k.cache.file slot :=
  settles_within _ k ids h (SegmentRegistry.openSegments_le_size k.cache.registry)

end VfsKernel

/-- Freeing any records in any reachable state comes to an end after fewer relocations
than there are open segments, if there is any, and every published file stays. -/
theorem settle_returns {fileExt : Key -> Ext} {k : VfsKernel} (h : NoisyReachable fileExt k)
    (ids : List RetireId) :
    exists n, Settles k ids n (k.settle ids) ∧
      (0 < n -> n < k.cache.registry.openSegments.card) ∧
      forall slot, (k.settle ids).cache.file slot = k.cache.file slot :=
  h.sound.settles ids

/-- Settling the version a worker still has to acknowledge. -/
theorem settle_returns_demo : exists n, Settles VfsKernel.demo [1] n (VfsKernel.demo.settle [1]) ∧
    (0 < n -> n < VfsKernel.demo.cache.registry.openSegments.card) ∧
    forall slot, (VfsKernel.demo.settle [1]).cache.file slot = VfsKernel.demo.cache.file slot :=
  settle_returns VfsKernel.demo_reachable.noisy [1]

/-- Where no segment is open there is none to be fewer than. -/
theorem settle_without_segments :
    ¬ forall k : VfsKernel, NoisyReachable VfsKernel.demoExt k -> forall ids, exists n,
      Settles k ids n (k.settle ids) ∧ n < k.cache.registry.openSegments.card := by
  intro h
  rcases h _ (NoisyReachable.initial 16 8 0) [] with ⟨n, _, hless⟩
  exact Nat.not_lt_zero n hless

end SharedMemoryFs
