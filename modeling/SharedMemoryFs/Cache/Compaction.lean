import SharedMemoryFs.Cache.Filesystem

/-!
# What a compaction plans

The plan empties the least utilised open segment: every published entry of it is
copied to free space of the other open segments, and the segment is closed.
-/

namespace SharedMemoryFs

open Foundation

namespace FilesystemCache

/-!
# The segment to empty
-/

def utilisation (r : SegmentRegistry) (space : SegmentSpace) : ℚ :=
  space.used / r.pool.segmentSize

/-- A segment that a compaction may empty. -/
def Open (r : SegmentRegistry) (entry : SegmentId × SegmentSpace) : Prop :=
  entry.2.tail ≠ 0 ∧ entry.1 ∉ r.closed

/-- The search after the entries {lit}`seen`. -/
structure Least (r : SegmentRegistry) (threshold : ℚ)
    (seen : List (SegmentId × SegmentSpace)) (best : Candidate) : Prop where
  minimal : forall entry, entry ∈ seen -> Open r entry ->
    best.minUtil ≤ utilisation r entry.2
  target : (best.target = none ∧ best.minUtil = threshold) ∨
    exists entry, entry ∈ seen ∧ Open r entry ∧ best.target = some entry.1 ∧
      best.minUtil = utilisation r entry.2 ∧ best.minUtil < threshold

theorem least_nil (r : SegmentRegistry) (threshold : ℚ) :
    Least r threshold [] ⟨0, threshold, none⟩ where
  minimal := fun _ he => absurd he List.not_mem_nil
  target := Or.inl ⟨rfl, rfl⟩

theorem Least.consider {r : SegmentRegistry} {threshold : ℚ}
    {seen : List (SegmentId × SegmentSpace)} {best : Candidate}
    (h : Least r threshold seen best) (entry : SegmentId × SegmentSpace) :
    Least r threshold (seen ++ [entry]) (considerSegment r best entry) := by
  have hold : (best.target = none ∧ best.minUtil = threshold) ∨
      exists e, e ∈ seen ++ [entry] ∧ Open r e ∧ best.target = some e.1 ∧
        best.minUtil = utilisation r e.2 ∧ best.minUtil < threshold := by
    rcases h.target with hnone | ⟨e, he, hrest⟩
    · exact Or.inl hnone
    · exact Or.inr ⟨e, List.mem_append_left _ he, hrest⟩
  have hle : best.minUtil ≤ threshold := by
    rcases h.target with ⟨_, heq⟩ | ⟨_, _, _, _, _, hlt⟩
    · exact heq.le
    · exact hlt.le
  unfold considerSegment
  simp only
  split_ifs with hskip hutil
  · refine ⟨?_, hold⟩
    intro e he hopen
    rcases List.mem_append.mp he with he | he
    · exact h.minimal e he hopen
    · rw [List.mem_singleton.mp he] at hopen
      rcases hskip with hskip | hskip
      · exact absurd hskip hopen.1
      · exact absurd hskip hopen.2
  · have hopen : Open r entry := ⟨fun heq => hskip (Or.inl heq), fun hmem => hskip (Or.inr hmem)⟩
    constructor
    · intro e he hopen
      rcases List.mem_append.mp he with he | he
      · exact hutil.le.trans (h.minimal e he hopen)
      · rw [List.mem_singleton.mp he]
        exact le_rfl
    · exact Or.inr ⟨entry, by simp, hopen, rfl, rfl, hutil.trans_le hle⟩
  · refine ⟨?_, hold⟩
    intro e he hopen
    rcases List.mem_append.mp he with he | he
    · exact h.minimal e he hopen
    · rw [List.mem_singleton.mp he]
      exact not_lt.mp hutil

theorem Least.fold {r : SegmentRegistry} {threshold : ℚ}
    (entries : List (SegmentId × SegmentSpace)) {seen : List (SegmentId × SegmentSpace)}
    {best : Candidate} (h : Least r threshold seen best) :
    Least r threshold (seen ++ entries) (entries.foldl (considerSegment r) best) := by
  induction entries generalizing seen best with
  | nil =>
      rw [List.append_nil]
      exact h
  | cons entry rest ih =>
      have hnext := ih (h.consider entry)
      rw [List.append_assoc] at hnext
      exact hnext

/-- The target is open, below the threshold and no fuller than another open
segment. -/
structure TargetSpec (r : SegmentRegistry) (threshold : ℚ) (target : SegmentId) : Prop where
  registered : exists space, r.spaces.get target = some space
  open_ : target ∉ r.closed
  below : (r.used target : ℚ) / r.pool.segmentSize < threshold
  least : forall id space, r.spaces.get id = some space -> space.tail ≠ 0 ->
    id ∉ r.closed ->
    (r.used target : ℚ) / r.pool.segmentSize ≤ (r.used id : ℚ) / r.pool.segmentSize

theorem used_of_get {r : SegmentRegistry} {id : SegmentId} {space : SegmentSpace}
    (h : r.spaces.get id = some space) : r.used id = space.used := by
  unfold SegmentRegistry.used
  rw [h]
  rfl

theorem compactTarget_spec {r : SegmentRegistry} {threshold : ℚ} {target : SegmentId}
    (h : compactTarget r threshold = some target) : TargetSpec r threshold target := by
  have hleast : Least r threshold r.spaces.entries
      (r.spaces.entries.foldl (considerSegment r) ⟨0, threshold, none⟩) :=
    Least.fold r.spaces.entries (least_nil r threshold)
  unfold compactTarget at h
  simp only at h
  split_ifs at h with hcount
  rcases hleast.target with ⟨hnone, _⟩ | ⟨entry, hmem, hopen, htarget, hutil, hlt⟩
  · rw [h] at hnone
    cases hnone
  · rw [h] at htarget
    have hget : r.spaces.get target = some entry.2 := by
      rw [Option.some.inj htarget]
      exact OrderedMap.mem_entries_iff.mp hmem
    have hused := used_of_get hget
    constructor
    · exact ⟨entry.2, hget⟩
    · rw [Option.some.inj htarget]
      exact hopen.2
    · rw [hutil] at hlt
      rw [hused]
      exact hlt
    · intro id space hid htail hidOpen
      have hle := hleast.minimal (id, space) (OrderedMap.mem_entries_iff.mpr hid)
        ⟨htail, hidOpen⟩
      rw [hutil] at hle
      rw [hused, used_of_get hid]
      exact hle

/-!
# The plan
-/

/-- The published entries with bytes in {lit}`target`. -/
theorem mem_slots_iff {c : FilesystemCache} {target : SegmentId} {mem' : Memory}
    {moves : List Item} (h : List.Forall₂ (Moved c.mem mem') (c.itemsOf target) moves)
    (hpos : forall move, move ∈ moves -> 0 < move.extent.length) (slot : Slot) :
    slot ∈ moves.map Item.slot <->
      exists entry e, c.index.get slot = some entry ∧ entry.extent? = some e ∧
        e.segmentId = target := by
  rw [slots_of_moved h]
  constructor
  · intro hslot
    rcases List.mem_map.mp hslot with ⟨item, hitem, rfl⟩
    rcases List.forall₂_iff_get.mp h with ⟨hlen, hget⟩
    rcases List.getElem_of_mem hitem with ⟨i, hi, hith⟩
    have hmoved := hget i hi (hlen ▸ hi)
    simp only [List.get_eq_getElem, hith] at hmoved
    rcases mem_items hitem with ⟨hpublished, hkind, htarget⟩
    refine ⟨item.entry, item.extent, hpublished, ?_, htarget⟩
    unfold Entry.extent?
    rw [hkind]
    exact if_pos (hmoved.length ▸ hpos _ (List.getElem_mem _))
  · intro hpublished
    rcases hpublished with ⟨entry, e, hget, he, htarget⟩
    cases hkind : entry.kind with
    | disk path =>
        unfold Entry.extent? at he
        rw [hkind] at he
        cases he
    | shared segmentId offset length =>
        unfold Entry.extent? at he
        simp only [hkind] at he
        split_ifs at he
        rw [← Option.some.inj he] at htarget
        have hitem : itemOf target (slot, entry) =
            some ⟨slot, entry, ⟨segmentId, offset, length⟩⟩ := by
          unfold itemOf
          simp only [hkind]
          exact if_pos htarget
        exact List.mem_map.mpr ⟨_, List.mem_filterMap.mpr
          ⟨(slot, entry), OrderedMap.mem_entries_iff.mpr hget, hitem⟩, rfl⟩

/-- What {lit}`compact` did when it returned {lit}`moves`. -/
structure Plan (c : FilesystemCache) (live : Multiset Extent) (threshold : ℚ)
    (c' : FilesystemCache) (moves : List Item) (target : SegmentId) : Prop where
  spec : TargetSpec c.registry threshold target
  names : forall slot, slot ∈ moves.map Item.slot <->
    exists entry e, c.index.get slot = some entry ∧ entry.extent? = some e ∧
      e.segmentId = target
  once : (moves.map Item.slot).Nodup
  outside : forall move, move ∈ moves ->
    move.extent.segmentId ≠ target ∧ move.extent.segmentId ∉ c.registry.closed
  fresh : forall move, move ∈ moves -> forall e, e ∈ live -> forall b,
    e.Covers b -> ¬ move.extent.Covers b
  apart : moves.Pairwise (fun a b => forall cell, a.extent.Covers cell ->
    ¬ b.extent.Covers cell)
  copied : forall move, move ∈ moves -> MoveSpec c c'.mem move
  kept : Agree live c.mem c'.mem
  index : c'.index = c.index
  pool : c'.registry.pool = c.registry.pool
  closed : c'.registry.closed = insert target c.registry.closed

theorem compact_plan {c c' : FilesystemCache} {live : Multiset Extent} {threshold : ℚ}
    {moves : List Item} (h : c.registry.Owned live)
    (hcompact : c.compact threshold = (c', some moves)) :
    exists target, Plan c live threshold c' moves target := by
  rcases compact_eq c threshold with heq | ⟨target, htarget, hsome, hnone⟩
  · rw [hcompact] at heq
    cases heq
  · have hspec := relocate_closing h (compactTarget_registered htarget)
    rcases hresult : relocate (c.closing target) (c.itemsOf target) [] with ⟨c₁, result⟩
    rw [hresult] at hspec
    cases result with
    | none =>
        rw [hnone c₁ hresult] at hcompact
        cases hcompact
    | some moves₁ =>
        rw [hsome c₁ moves₁ hresult] at hcompact
        cases hcompact
        rcases hspec.fits moves rfl with ⟨howned, _, done, hdone, hall, hopen⟩
        rw [List.nil_append] at hdone
        subst hdone
        have hmoved : List.Forall₂ (Moved c.mem c'.mem) (c.itemsOf target) moves := hall
        have hmem : forall move, move ∈ moves ->
            move.extent ∈ movedExtents moves :=
          fun move hmove => Multiset.mem_coe.mpr (List.mem_map_of_mem hmove)
        have hpos : forall move, move ∈ moves -> 0 < move.extent.length :=
          fun move hmove => howned.pos _ (Multiset.mem_add.mpr (Or.inr (hmem move hmove)))
        refine ⟨target, ?_⟩
        constructor
        · exact compactTarget_spec htarget
        · exact mem_slots_iff hmoved hpos
        · rw [slots_of_moved hall]
          exact items_slots_nodup c target
        · intro move hmove
          have hout : move.extent.segmentId ∉ insert target c.registry.closed :=
            hopen move hmove
          rw [Finset.mem_insert, not_or] at hout
          exact hout
        · intro move hmove e he b hb
          exact howned.exact_.disjoint_of_mem he (hmem move hmove) hb
        · exact List.pairwise_map.mp howned.exact_.pairwise
        · intro move hmove
          exact moveSpec_of_moved hmoved hmove (hpos move hmove)
        · exact hspec.agree
        · exact hspec.index
        · exact hspec.pool
        · exact hspec.closed

/-- A compaction that found no plan gives the registry back as it was, whatever its
free lists went through. -/
theorem compact_none {c c' : FilesystemCache} {live : Multiset Extent} {threshold : ℚ}
    (h : c.registry.Owned live) (hcompact : c.compact threshold = (c', none)) :
    c'.registry.pool = c.registry.pool ∧ c'.registry.closed = c.registry.closed := by
  rcases compact_eq c threshold with heq | ⟨target, htarget, hsome, hnone⟩
  · rw [hcompact] at heq
    cases heq
    exact ⟨rfl, rfl⟩
  · have hspec := relocate_closing h (compactTarget_registered htarget)
    rcases hresult : relocate (c.closing target) (c.itemsOf target) [] with ⟨c₁, result⟩
    rw [hresult] at hspec
    cases result with
    | some moves =>
        rw [hsome c₁ moves hresult] at hcompact
        cases hcompact
    | none =>
        rw [hnone c₁ hresult] at hcompact
        cases hcompact
        constructor
        · exact hspec.pool
        · show c₁.registry.closed.erase target = _
          rw [hspec.closed]
          exact Finset.erase_insert (compactTarget_spec htarget).open_

end FilesystemCache

end SharedMemoryFs
