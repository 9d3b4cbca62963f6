import SharedMemoryFs.Cache.Allocator

/-!
# A compaction that does not fit

Undoing a plan releases what was placed and nothing else.  Bytes taken from a free
extent come back to it, and the free lists are determined by the free bytes.  Bytes
taken from behind a tail come back as a free extent: the tail stays where it is.
-/

namespace SharedMemoryFs

open Foundation

namespace SegmentRegistry

/-!
# What a registry is made of
-/

/-- The first never-used offset of a segment, 0 when it is not registered. -/
def tailOf (r : SegmentRegistry) (id : SegmentId) : Nat :=
  ((r.spaces.get id).map SegmentSpace.tail).getD 0

theorem tailOf_get {r : SegmentRegistry} {id : SegmentId} {space : SegmentSpace}
    (h : r.spaces.get id = some space) : r.tailOf id = space.tail := by
  unfold tailOf
  rw [h]
  rfl

theorem tailOf_set (r : SegmentRegistry) (id k : SegmentId) (space : SegmentSpace) :
    ({ r with spaces := r.spaces.set id space } : SegmentRegistry).tailOf k =
      if k = id then space.tail else r.tailOf k := by
  unfold tailOf
  show (((r.spaces.set id space).get k).map SegmentSpace.tail).getD 0 = _
  rw [OrderedMap.get_set]
  by_cases hk : k = id
  · rw [if_pos hk, if_pos hk]
    rfl
  · rw [if_neg hk, if_neg hk]

/-- Registries with the same segments, tails and allocated bytes are equal. -/
theorem Sound.unique {r r' : SegmentRegistry} (h : r.Sound) (h' : r'.Sound)
    (hpool : r.pool = r'.pool) (hclosed : r.closed = r'.closed)
    (hkeys : r.spaces.keys = r'.spaces.keys) (htail : forall id, r.tailOf id = r'.tailOf id)
    (hallocated : forall c, r.Allocated c <-> r'.Allocated c) : r = r' := by
  have hspaces : r.spaces = r'.spaces := by
    apply OrderedMap.ext_get hkeys
    intro id
    cases hget : r.spaces.get id with
    | none =>
        cases hget' : r'.spaces.get id with
        | none => rfl
        | some space' =>
            have hmem := OrderedMap.mem_keys_iff.mpr ⟨space', hget'⟩
            rw [← hkeys] at hmem
            rcases OrderedMap.mem_keys_iff.mp hmem with ⟨space, hsome⟩
            rw [hget] at hsome
            cases hsome
    | some space =>
        have hmem := OrderedMap.mem_keys_iff.mpr ⟨space, hget⟩
        rw [hkeys] at hmem
        rcases OrderedMap.mem_keys_iff.mp hmem with ⟨space', hget'⟩
        have heqTail : space.tail = space'.tail := by
          rw [← tailOf_get hget, ← tailOf_get hget', htail]
        have hbyte : forall b, space.Allocated b <-> space'.Allocated b := by
          intro b
          have hcell := hallocated (id, b)
          unfold Allocated at hcell
          simp only [hget, hget', Option.some.injEq, exists_eq_left'] at hcell
          exact hcell
        have hfree : space.free = space'.free := by
          apply (h.space hget).separated.unique (h'.space hget').separated
          have hin : forall {s : SegmentSpace} {size b : Nat}, s.Sound size ->
              (Covered s.free b <-> b < s.tail ∧ ¬ s.Allocated b) := by
            intro s size b hs
            unfold SegmentSpace.Allocated
            constructor
            · intro hcov
              rcases hcov with ⟨extent, hextent, hb⟩
              exact ⟨hb.2.trans_le (hs.below extent hextent),
                fun halloc => halloc.2 ⟨extent, hextent, hb⟩⟩
            · intro hb
              by_contra hcov
              exact hb.2 ⟨hb.1, hcov⟩
          intro b
          rw [hin (h.space hget), hin (h'.space hget'), heqTail, hbyte]
        rw [hget']
        cases space
        cases space'
        simp only at heqTail hfree
        rw [heqTail, hfree]
  cases r
  cases r'
  simp only at hpool hclosed hspaces
  rw [hpool, hclosed, hspaces]

/-!
# Tails only grow
-/

theorem keys_release (r : SegmentRegistry) (e : Extent) :
    (r.release e).spaces.keys = r.spaces.keys := by
  unfold release
  cases hget : r.spaces.get e.segmentId with
  | none => rfl
  | some space => exact OrderedMap.keys_set hget _

theorem tailOf_release (r : SegmentRegistry) (e : Extent) (id : SegmentId) :
    (r.release e).tailOf id = r.tailOf id := by
  unfold release
  cases hget : r.spaces.get e.segmentId with
  | none => rfl
  | some space =>
      show ({ r with spaces := r.spaces.set e.segmentId _ } : SegmentRegistry).tailOf id = _
      rw [tailOf_set]
      by_cases hid : id = e.segmentId
      · rw [if_pos hid, hid, tailOf_get hget]
      · rw [if_neg hid]

/-- The allocation is taken from a free extent. -/
def inExtent (r : SegmentRegistry) (size : Nat) : Bool :=
  (bestFit size r.closed r.spaces.entries none).isSome

/-- Where an allocation without growing leaves the tails. -/
theorem tailOf_allocate {r r' : SegmentRegistry} {size : Nat} {e : Extent}
    (halloc : r.allocate size true = some (e, r')) :
    r'.spaces.keys = r.spaces.keys ∧
      (r.inExtent size = true -> forall id, r'.tailOf id = r.tailOf id) ∧
      (r.inExtent size = false -> r.tailOf e.segmentId < r'.tailOf e.segmentId) ∧
      forall id, r.tailOf id ≤ r'.tailOf id := by
  unfold SegmentRegistry.allocate at halloc
  unfold inExtent
  by_cases hzero : size = 0
  · rw [if_pos hzero] at halloc
    cases halloc
  · rw [if_neg hzero] at halloc
    by_cases hbig : r.pool.segmentSize < size
    · rw [if_pos hbig] at halloc
      cases halloc
    · rw [if_neg hbig] at halloc
      cases hbest : bestFit size r.closed r.spaces.entries none with
      | some fit =>
          simp only [hbest, Option.some.injEq, Prod.mk.injEq] at halloc
          rcases bestFit_cases hbest with hnone | ⟨space, hmem, _⟩
          · cases hnone
          · have hget := OrderedMap.mem_entries_iff.mp hmem
            have htail : forall id, r'.tailOf id = r.tailOf id := by
              intro id
              rw [← halloc.2, tailOf_set]
              by_cases hid : id = fit.segmentId
              · rw [if_pos hid, hid, tailOf_get hget, hget]
                rfl
              · rw [if_neg hid]
            refine ⟨?_, fun _ => htail, fun hnone => (by cases hnone), fun id => (htail id).ge⟩
            rw [← halloc.2]
            exact OrderedMap.keys_set hget _
      | none =>
          simp only [hbest] at halloc
          cases hfit : r.tailFit size with
          | none => simp [hfit] at halloc
          | some entry =>
              simp only [hfit, Option.some.injEq, Prod.mk.injEq] at halloc
              have hget : r.spaces.get entry.1 = some entry.2 :=
                OrderedMap.mem_entries_iff.mp (List.mem_of_find?_eq_some hfit)
              have hat : r.tailOf entry.1 = entry.2.tail := tailOf_get hget
              refine ⟨?_, fun hsome => (by cases hsome), fun _ => ?_, ?_⟩
              · rw [← halloc.2]
                exact OrderedMap.keys_set hget _
              · rw [← halloc.1, ← halloc.2, tailOf_set, if_pos rfl]
                show r.tailOf entry.1 < entry.2.tail + size
                omega
              · intro id
                rw [← halloc.2, tailOf_set]
                by_cases hid : id = entry.1
                · rw [if_pos hid, hid, hat]
                  exact Nat.le_add_right _ _
                · rw [if_neg hid]

/-- The free extents take each size in turn, up to the first that fits nowhere. -/
def servedByExtents : SegmentRegistry -> List Nat -> Bool
  | _, [] => true
  | r, size :: rest =>
      match r.allocate size true with
      | none => true
      | some (_, r') => r.inExtent size && servedByExtents r' rest

/-!
# Answers
-/

/-- A call of the allocator. -/
inductive Call where
  | allocate (size : Nat)
  | free (e : Extent)

/-- What a sequence of calls answers. -/
def answers : SegmentRegistry -> List Call -> List (Option Extent)
  | _, [] => []
  | r, Call.allocate size :: rest =>
      match r.allocate size false with
      | none => none :: answers r rest
      | some (e, r') => some e :: answers r' rest
  | r, Call.free e :: rest => none :: answers (r.releaseExtent e) rest

/-- The allocator is as before, and answers as before. -/
def Undone (r r' : SegmentRegistry) : Prop :=
  r' = r ∧ forall calls, r'.answers calls = r.answers calls

theorem undone_iff (r r' : SegmentRegistry) : Undone r r' <-> r' = r := by
  constructor
  · exact fun h => h.1
  · intro h
    rw [h]
    exact ⟨rfl, fun _ => rfl⟩

end SegmentRegistry

namespace FilesystemCache

theorem rollback_tails (r : SegmentRegistry) (moves : List Item) :
    (rollback r moves).spaces.keys = r.spaces.keys ∧
      forall id, (rollback r moves).tailOf id = r.tailOf id := by
  induction moves generalizing r with
  | nil => exact ⟨rfl, fun _ => rfl⟩
  | cons move rest ih =>
      rcases ih (r.release move.extent) with ⟨hkeys, htail⟩
      constructor
      · exact hkeys.trans (SegmentRegistry.keys_release r move.extent)
      · intro id
        exact (htail id).trans (SegmentRegistry.tailOf_release r move.extent id)

/-- A relocation that failed left the tails alone exactly if free extents took every
move it placed. -/
theorem relocate_tails {items moves : List Item} {c c' : FilesystemCache}
    (h : relocate c items moves = (c', none)) :
    c'.registry.spaces.keys = c.registry.spaces.keys ∧
      (forall id, c.registry.tailOf id ≤ c'.registry.tailOf id) ∧
      (c.registry.servedByExtents (items.map (fun item => item.extent.length)) = true ->
        forall id, c'.registry.tailOf id = c.registry.tailOf id) ∧
      (c.registry.servedByExtents (items.map (fun item => item.extent.length)) = false ->
        exists id, c.registry.tailOf id < c'.registry.tailOf id) := by
  induction items generalizing c moves with
  | nil =>
      unfold relocate at h
      cases (Prod.mk.inj h).2
  | cons item rest ih =>
      unfold relocate at h
      rw [List.map_cons]
      unfold SegmentRegistry.servedByExtents
      cases halloc : c.registry.allocate item.extent.length true with
      | none =>
          rw [halloc] at h
          rcases rollback_tails c.registry moves with ⟨hkeys, htail⟩
          rw [← (Prod.mk.inj h).1]
          exact ⟨hkeys, fun id => (htail id).ge, fun _ => htail, fun hfalse => (by cases hfalse)⟩
      | some placed =>
          rcases placed with ⟨e, registry⟩
          rw [halloc] at h
          rcases ih h with ⟨hkeys, hmono, hserved, hgrown⟩
          rcases SegmentRegistry.tailOf_allocate halloc with ⟨hkeysStep, hin, hout, hmonoStep⟩
          have hmonoAll : forall id, c.registry.tailOf id ≤ c'.registry.tailOf id :=
            fun id => (hmonoStep id).trans (hmono id)
          refine ⟨hkeys.trans hkeysStep, hmonoAll, ?_, ?_⟩
          · intro hboth
            rcases Bool.and_eq_true_iff.mp hboth with ⟨hhere, hrest⟩
            intro id
            exact (hserved hrest id).trans (hin hhere id)
          · intro hone
            rcases Bool.and_eq_false_iff.mp hone with hhere | hrest
            · exact ⟨e.segmentId, (hout hhere).trans_le (hmono e.segmentId)⟩
            · rcases hgrown hrest with ⟨id, hlt⟩
              exact ⟨id, (hmonoStep id).trans_lt hlt⟩

/-- Free extents would take every move that a compaction places before one fits
nowhere. -/
def Reverts (c : FilesystemCache) (threshold : ℚ) : Prop :=
  threshold = 0 ∨ forall target, compactTarget c.registry threshold = some target ->
    (c.closing target).registry.servedByExtents
      ((c.itemsOf target).map (fun item => item.extent.length)) = true

/-- A compaction returned nothing before it placed anything, or rolled back. -/
theorem compact_none_cases {c c' : FilesystemCache} {threshold : ℚ}
    (h : c.compact threshold = (c', none)) :
    (c' = c ∧ c.Reverts threshold) ∨
      exists target c₁, threshold ≠ 0 ∧ compactTarget c.registry threshold = some target ∧
        relocate (c.closing target) (c.itemsOf target) [] = (c₁, none) ∧
        c'.registry = { c₁.registry with closed := c₁.registry.closed.erase target } := by
  unfold compact at h
  unfold Reverts
  by_cases hzero : threshold = 0
  · rw [if_pos hzero] at h
    exact Or.inl ⟨(Prod.mk.inj h).1.symm, Or.inl hzero⟩
  · rw [if_neg hzero] at h
    cases htarget : compactTarget c.registry threshold with
    | none =>
        rw [htarget] at h
        exact Or.inl ⟨(Prod.mk.inj h).1.symm, Or.inr (fun target hsome => (by cases hsome))⟩
    | some target =>
        rw [htarget] at h
        simp only at h
        by_cases hempty : (c.index.entries.filterMap (itemOf target)).isEmpty = true
        · rw [if_pos hempty] at h
          refine Or.inl ⟨(Prod.mk.inj h).1.symm, Or.inr ?_⟩
          intro other hsome
          have hitems : c.itemsOf other = [] := by
            rw [← Option.some.inj hsome]
            exact List.isEmpty_iff.mp hempty
          rw [hitems]
          rfl
        · rw [if_neg hempty] at h
          right
          rcases hresult : relocate (c.closing target) (c.itemsOf target) [] with ⟨c₁, result⟩
          have hresult' := hresult
          unfold closing itemsOf at hresult'
          rw [hresult'] at h
          cases result with
          | some moves => cases (Prod.mk.inj h).2
          | none =>
              refine ⟨target, c₁, hzero, rfl, hresult, ?_⟩
              rw [← (Prod.mk.inj h).1]

end FilesystemCache

namespace Usage

variable {limit segmentSize : Nat} {u : Usage}

def slotOf (name : Key) : Slot := ⟨"demo", EntryKey.ofSource name⟩

def holed : Usage :=
  ((((((new 16 8).apply (placed 5)).apply (placed 3)).apply (placed 2)).apply (placed 2)).apply
    (Operation.put (slotOf ['b']) (sharedEntry (demoFile 2) ⟨2, 0, 2⟩))).apply
      (Operation.put (slotOf ['c']) (sharedEntry (demoFile 2) ⟨2, 2, 2⟩)) |>.apply
        (Operation.free (sharedEntry (demoFile 3) ⟨1, 5, 3⟩))

def tailed : Usage :=
  ((((((new 16 8).apply (placed 8)).apply (placed 2)).apply (placed 2)).apply
    (Operation.put (slotOf ['b']) (sharedEntry (demoFile 2) ⟨2, 0, 2⟩))).apply
      (Operation.put (slotOf ['c']) (sharedEntry (demoFile 2) ⟨2, 2, 2⟩))).apply
        (Operation.free (sharedEntry (demoFile 8) ⟨1, 0, 8⟩)) |>.apply (placed 5)

theorem holed_reachable : Reachable 16 8 holed := by
  apply Reachable.step
  · apply Reachable.step
    · apply Reachable.step
      · exact (((Reachable.new.step (placed 5) trivial).step (placed 3) trivial).step
          (placed 2) trivial).step (placed 2) trivial
      · show _ ∈ Usage.handed _
        decide
    · show _ ∈ Usage.handed _
      decide
  · show _ ∈ Usage.live _
    decide

theorem tailed_reachable : Reachable 16 8 tailed := by
  refine Reachable.step (placed 5) ?_ trivial
  apply Reachable.step
  · apply Reachable.step
    · apply Reachable.step
      · exact ((Reachable.new.step (placed 8) trivial).step (placed 2) trivial).step
          (placed 2) trivial
      · show _ ∈ Usage.handed _
        decide
    · show _ ∈ Usage.handed _
      decide
  · show _ ∈ Usage.live _
    decide

end Usage

end SharedMemoryFs
