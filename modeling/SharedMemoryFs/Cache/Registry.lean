import SharedMemoryFs.Foundation.Spans
import SharedMemoryFs.Foundation.ExactCover
import SharedMemoryFs.Cache.Entries

/-!
# The segment pool and its extent registry

The pool hands out whole segments and keeps fully freed ones for reuse.  The
registry keeps, for every segment in use, the sorted free extents inside its
used prefix and the first never-used offset.  The two maps {lit}`free` and
{lit}`tail` of the source always have the same keys, in the same order, and are
one map here.
-/

namespace SharedMemoryFs

open Foundation

structure Pool where
  limit : Nat
  segmentSize : Nat
  segments : List SegmentId
  emptySegmentIds : List SegmentId
  totalUsed : Nat
  nextSegmentId : Nat

namespace Pool

def new (limit segmentSize : Nat) : Pool :=
  { limit := limit
    segmentSize := segmentSize
    segments := []
    emptySegmentIds := []
    totalUsed := 0
    nextSegmentId := 1 }

def createSegment (pool : Pool) : Option (SegmentId × Pool) :=
  match pool.emptySegmentIds with
  | id :: rest => some (id, { pool with emptySegmentIds := rest })
  | [] =>
      if pool.limit < pool.totalUsed + pool.segmentSize then none
      else
        some (pool.nextSegmentId,
          { pool with
            segments := pool.segments ++ [pool.nextSegmentId]
            totalUsed := pool.totalUsed + pool.segmentSize
            nextSegmentId := pool.nextSegmentId + 1 })

def freeSegment (pool : Pool) (id : SegmentId) : Pool :=
  if id ∈ pool.segments then
    { pool with emptySegmentIds := pool.emptySegmentIds ++ [id] }
  else pool

end Pool

/-- The free extents of one segment's used prefix, and the prefix's end. -/
structure SegmentSpace where
  free : List Span
  tail : Nat
deriving DecidableEq

namespace SegmentSpace

def used (space : SegmentSpace) : Nat := space.tail - totalLength space.free

def Allocated (space : SegmentSpace) (b : Nat) : Prop :=
  b < space.tail ∧ ¬ Covered space.free b

structure Sound (size : Nat) (space : SegmentSpace) : Prop where
  separated : Separated space.free
  below : Below space.tail space.free
  tail_le : space.tail ≤ size

theorem used_eq_zero_iff {size : Nat} {space : SegmentSpace}
    (h : space.Sound size) : space.used = 0 <-> forall b, ¬ space.Allocated b := by
  have hlo : forall s, s ∈ space.free -> 0 ≤ s.offset := fun _ _ => Nat.zero_le _
  have hle := totalLength_le h.separated hlo h.below (Nat.zero_le _)
  unfold used
  constructor
  · intro hused b hb
    exact hb.2 (covered_of_totalLength h.separated hlo h.below (by omega)
      (Nat.zero_le b) hb.1)
  · intro hnone
    have hfull := totalLength_of_covered h.separated hlo h.below (Nat.zero_le _)
      (fun b _ hb => by
        by_contra hcov
        exact hnone b ⟨hb, hcov⟩)
    omega

end SegmentSpace

structure SegmentRegistry where
  pool : Pool
  spaces : OrderedMap SegmentId SegmentSpace
  closed : Finset SegmentId

/-- A free extent found by the best-fit search, with its position. -/
structure Fit where
  segmentId : SegmentId
  index : Nat
  extent : Span
deriving DecidableEq

def betterFit (size : Nat) (segmentId : SegmentId) (index : Nat) (extent : Span)
    (best : Option Fit) : Option Fit :=
  if extent.length < size then best
  else
    match best with
    | none => some ⟨segmentId, index, extent⟩
    | some fit =>
        if extent.length < fit.extent.length then some ⟨segmentId, index, extent⟩
        else some fit

def bestFitIn (size : Nat) (segmentId : SegmentId) :
    Nat -> List Span -> Option Fit -> Option Fit
  | _, [], best => best
  | index, extent :: rest, best =>
      bestFitIn size segmentId (index + 1) rest
        (betterFit size segmentId index extent best)

def bestFit (size : Nat) (closed : Finset SegmentId) :
    List (SegmentId × SegmentSpace) -> Option Fit -> Option Fit
  | [], best => best
  | (segmentId, space) :: rest, best =>
      if segmentId ∈ closed then bestFit size closed rest best
      else bestFit size closed rest (bestFitIn size segmentId 0 space.free best)

namespace SegmentRegistry

def new (limit segmentSize : Nat) : SegmentRegistry :=
  { pool := Pool.new limit segmentSize
    spaces := OrderedMap.empty
    closed := ∅ }

def tailFit (r : SegmentRegistry) (size : Nat) : Option (SegmentId × SegmentSpace) :=
  r.spaces.entries.find? (fun entry =>
    decide (entry.1 ∉ r.closed ∧ entry.2.tail + size ≤ r.pool.segmentSize))

/-- Best-fit free extent, then the tail of a partially used segment, then a new
segment.  A size of 0 is a RangeError in the source and no caller passes it. -/
def allocate (r : SegmentRegistry) (size : Nat) (noGrow : Bool) :
    Option (Extent × SegmentRegistry) :=
  if size = 0 then none
  else if r.pool.segmentSize < size then none
  else
    match bestFit size r.closed r.spaces.entries none with
    | some fit =>
        let space := (r.spaces.get fit.segmentId).getD ⟨[], 0⟩
        some (⟨fit.segmentId, fit.extent.offset, size⟩,
          { r with
            spaces := r.spaces.set fit.segmentId
              { space with free := carve space.free fit.index size } })
    | none =>
        match r.tailFit size with
        | some (segmentId, space) =>
            some (⟨segmentId, space.tail, size⟩,
              { r with
                spaces := r.spaces.set segmentId
                  { space with tail := space.tail + size } })
        | none =>
            if noGrow then none
            else
              match r.pool.createSegment with
              | none => none
              | some (segmentId, pool) =>
                  some (⟨segmentId, 0, size⟩,
                    { r with
                      pool := pool
                      spaces := r.spaces.set segmentId ⟨[], size⟩ })

def release (r : SegmentRegistry) (e : Extent) : SegmentRegistry :=
  match r.spaces.get e.segmentId with
  | none => r
  | some space =>
      { r with
        spaces := r.spaces.set e.segmentId
          { space with free := insertMerged space.free ⟨e.offset, e.length⟩ } }

def used (r : SegmentRegistry) (segmentId : SegmentId) : Nat :=
  ((r.spaces.get segmentId).map SegmentSpace.used).getD 0

def unregister (r : SegmentRegistry) (segmentId : SegmentId) : SegmentRegistry :=
  { r with
    spaces := r.spaces.delete segmentId
    closed := r.closed.erase segmentId }

/-- {lit}`FilesystemCache.#release`: a segment whose last byte is freed goes
back to the pool. -/
def releaseExtent (r : SegmentRegistry) (e : Extent) : SegmentRegistry :=
  if e.segmentId ∈ r.pool.segments then
    let released := r.release e
    if released.used e.segmentId = 0 then
      let unregistered := released.unregister e.segmentId
      { unregistered with pool := unregistered.pool.freeSegment e.segmentId }
    else released
  else r

/-!
# Allocated bytes
-/

/-- Byte {lit}`c.2` of segment {lit}`c.1` is handed out: inside the used prefix
and outside every free extent. -/
def Allocated (r : SegmentRegistry) (c : SegmentId × Nat) : Prop :=
  exists space, r.spaces.get c.1 = some space ∧ space.Allocated c.2

structure Sound (r : SegmentRegistry) : Prop where
  space : forall {id space}, r.spaces.get id = some space ->
    space.Sound r.pool.segmentSize
  live : forall {id space}, r.spaces.get id = some space ->
    exists b, space.Allocated b
  closed : forall {id}, id ∈ r.closed -> exists space, r.spaces.get id = some space
  registered : forall id, (exists space, r.spaces.get id = some space) <->
    id ∈ r.pool.segments ∧ id ∉ r.pool.emptySegmentIds
  empty : forall {id}, id ∈ r.pool.emptySegmentIds -> id ∈ r.pool.segments
  nodupSegments : r.pool.segments.Nodup
  nodupEmpty : r.pool.emptySegmentIds.Nodup
  fresh : forall {id}, id ∈ r.pool.segments -> id < r.pool.nextSegmentId
  totalUsed : r.pool.totalUsed = r.pool.segmentSize * r.pool.segments.length
  limit : r.pool.totalUsed ≤ r.pool.limit

theorem sound_new (limit segmentSize : Nat) : (new limit segmentSize).Sound where
  space := fun h => by cases h
  live := fun h => by cases h
  closed := fun h => by simp [new] at h
  registered := fun id => by
    constructor
    · intro h
      rcases h with ⟨space, hspace⟩
      cases hspace
    · intro h
      cases h.1
  empty := fun h => by cases h
  nodupSegments := List.nodup_nil
  nodupEmpty := List.nodup_nil
  fresh := fun h => by cases h
  totalUsed := rfl
  limit := Nat.zero_le _

theorem not_allocated_new (limit segmentSize : Nat) (c : SegmentId × Nat) :
    ¬ (new limit segmentSize).Allocated c := by
  intro h
  rcases h with ⟨space, hspace, _⟩
  cases hspace

/-- Every allocated byte lies in a segment of the pool. -/
theorem Sound.segment_mem {r : SegmentRegistry} (h : r.Sound)
    {c : SegmentId × Nat} (hc : r.Allocated c) : c.1 ∈ r.pool.segments := by
  rcases hc with ⟨space, hspace, _⟩
  exact ((h.registered c.1).mp ⟨space, hspace⟩).1

/-- Rewriting the space of one registered segment. -/
theorem Sound.setSpace {r : SegmentRegistry} (h : r.Sound) {id : SegmentId}
    {old space : SegmentSpace} (hold : r.spaces.get id = some old)
    (hspace : space.Sound r.pool.segmentSize)
    (hlive : exists b, space.Allocated b) :
    ({ r with spaces := r.spaces.set id space } : SegmentRegistry).Sound := by
  have hget : forall {k s}, (r.spaces.set id space).get k = some s ->
      (k = id ∧ s = space) ∨ (k ≠ id ∧ r.spaces.get k = some s) := by
    intro k s hk
    rw [OrderedMap.get_set] at hk
    by_cases heq : k = id
    · rw [if_pos heq] at hk
      exact Or.inl ⟨heq, (Option.some.inj hk).symm⟩
    · rw [if_neg heq] at hk
      exact Or.inr ⟨heq, hk⟩
  have hdom : forall k, (exists s, (r.spaces.set id space).get k = some s) <->
      exists s, r.spaces.get k = some s := by
    intro k
    rw [OrderedMap.get_set]
    by_cases heq : k = id
    · rw [if_pos heq, heq]
      exact ⟨fun _ => ⟨old, hold⟩, fun _ => ⟨space, rfl⟩⟩
    · rw [if_neg heq]
  exact
    { space := fun hk => by
        rcases hget hk with ⟨_, heq⟩ | ⟨_, hk⟩
        · rw [heq]
          exact hspace
        · exact h.space hk
      live := fun hk => by
        rcases hget hk with ⟨_, heq⟩ | ⟨_, hk⟩
        · rw [heq]
          exact hlive
        · exact h.live hk
      closed := fun hk => (hdom _).mpr (h.closed hk)
      registered := fun k => (hdom k).trans (h.registered k)
      empty := h.empty
      nodupSegments := h.nodupSegments
      nodupEmpty := h.nodupEmpty
      fresh := h.fresh
      totalUsed := h.totalUsed
      limit := h.limit }

theorem allocated_setSpace {r : SegmentRegistry} {id : SegmentId}
    {space : SegmentSpace} {c : SegmentId × Nat} :
    ({ r with spaces := r.spaces.set id space } : SegmentRegistry).Allocated c <->
      (c.1 = id ∧ space.Allocated c.2) ∨ (c.1 ≠ id ∧ r.Allocated c) := by
  unfold Allocated
  simp only [OrderedMap.get_set]
  by_cases hc : c.1 = id
  · simp [hc]
  · simp [hc]

/-!
# Allocation
-/

theorem betterFit_cases {size : Nat} {segmentId : SegmentId} {index : Nat}
    {extent : Span} {best : Option Fit} {fit : Fit}
    (h : betterFit size segmentId index extent best = some fit) :
    best = some fit ∨
      (fit = ⟨segmentId, index, extent⟩ ∧ size ≤ extent.length) := by
  unfold betterFit at h
  by_cases hsize : extent.length < size
  · rw [if_pos hsize] at h
    exact Or.inl h
  · rw [if_neg hsize] at h
    cases best with
    | none => exact Or.inr ⟨(Option.some.inj h).symm, not_lt.mp hsize⟩
    | some old =>
        by_cases hbetter : extent.length < old.extent.length
        · simp only [if_pos hbetter] at h
          exact Or.inr ⟨(Option.some.inj h).symm, not_lt.mp hsize⟩
        · simp only [if_neg hbetter] at h
          exact Or.inl h

theorem bestFitIn_cases {size : Nat} {segmentId : SegmentId} {extents : List Span}
    {index : Nat} {best : Option Fit} {fit : Fit}
    (h : bestFitIn size segmentId index extents best = some fit) :
    best = some fit ∨
      (fit.segmentId = segmentId ∧ size ≤ fit.extent.length ∧ index ≤ fit.index ∧
        extents[fit.index - index]? = some fit.extent) := by
  induction extents generalizing index best with
  | nil => exact Or.inl h
  | cons extent rest ih =>
      rcases ih h with hbest | ⟨hseg, hsize, hindex, hget⟩
      · rcases betterFit_cases hbest with hold | ⟨heq, hsize⟩
        · exact Or.inl hold
        · subst heq
          exact Or.inr ⟨rfl, hsize, le_rfl, by simp⟩
      · refine Or.inr ⟨hseg, hsize, by omega, ?_⟩
        rw [show fit.index - index = fit.index - (index + 1) + 1 by omega]
        exact hget

theorem bestFit_cases {size : Nat} {closed : Finset SegmentId}
    {spaces : List (SegmentId × SegmentSpace)} {best : Option Fit} {fit : Fit}
    (h : bestFit size closed spaces best = some fit) :
    best = some fit ∨
      exists space, (fit.segmentId, space) ∈ spaces ∧ fit.segmentId ∉ closed ∧
        space.free[fit.index]? = some fit.extent ∧ size ≤ fit.extent.length := by
  induction spaces generalizing best with
  | nil => exact Or.inl h
  | cons entry rest ih =>
      rcases entry with ⟨segmentId, space⟩
      unfold bestFit at h
      by_cases hclosed : segmentId ∈ closed
      · rw [if_pos hclosed] at h
        rcases ih h with hold | ⟨found, hmem, hrest⟩
        · exact Or.inl hold
        · exact Or.inr ⟨found, List.mem_cons_of_mem _ hmem, hrest⟩
      · rw [if_neg hclosed] at h
        rcases ih h with hbest | ⟨found, hmem, hrest⟩
        · rcases bestFitIn_cases hbest with hold | ⟨hseg, hsize, _, hget⟩
          · exact Or.inl hold
          · rw [Nat.sub_zero] at hget
            refine Or.inr ⟨space, ?_, ?_, hget, hsize⟩
            · rw [hseg]
              exact List.mem_cons_self
            · rw [hseg]
              exact hclosed
        · exact Or.inr ⟨found, List.mem_cons_of_mem _ hmem, hrest⟩

/-- What an allocation of {lit}`size` bytes that returned {lit}`e` did. -/
structure AllocateSpec (r : SegmentRegistry) (size : Nat) (e : Extent)
    (r' : SegmentRegistry) : Prop where
  sound : r'.Sound
  length : e.length = size
  pos : 0 < size
  open_ : e.segmentId ∉ r.closed
  fresh : forall c, e.Covers c -> ¬ r.Allocated c
  allocated : forall c, r'.Allocated c <-> r.Allocated c ∨ e.Covers c
  segmentSize : r'.pool.segmentSize = r.pool.segmentSize
  closed : r'.closed = r.closed
  segments : forall {id}, id ∈ r.pool.segments -> id ∈ r'.pool.segments

/-- An allocation inside a registered segment, by its effect on that space. -/
theorem allocateSpec_setSpace {r : SegmentRegistry} (h : r.Sound)
    {id : SegmentId} {old space : SegmentSpace} {offset size : Nat}
    (hold : r.spaces.get id = some old) (hpos : 0 < size) (hopen : id ∉ r.closed)
    (hsound : space.Sound r.pool.segmentSize)
    (hfresh : forall b, offset ≤ b ∧ b < offset + size -> ¬ old.Allocated b)
    (halloc : forall b, space.Allocated b <->
      old.Allocated b ∨ (offset ≤ b ∧ b < offset + size)) :
    AllocateSpec r size ⟨id, offset, size⟩
      { r with spaces := r.spaces.set id space } := by
  have hallocated : forall c, r.Allocated c -> c.1 = id -> old.Allocated c.2 := by
    intro c hc heq
    rcases hc with ⟨found, hfound, hb⟩
    rw [heq, hold] at hfound
    rw [Option.some.inj hfound]
    exact hb
  constructor
  · exact h.setSpace hold hsound ⟨offset, (halloc offset).mpr (Or.inr (by omega))⟩
  · rfl
  · exact hpos
  · exact hopen
  · intro c hcover hc
    exact hfresh c.2 hcover.2 (hallocated c hc hcover.1.symm)
  · intro c
    rw [allocated_setSpace, halloc]
    constructor
    · intro hc
      rcases hc with ⟨heq, hb | hb⟩ | ⟨_, hc⟩
      · exact Or.inl ⟨old, by rw [heq]; exact hold, hb⟩
      · exact Or.inr ⟨heq.symm, hb⟩
      · exact Or.inl hc
    · intro hc
      rcases hc with hc | hc
      · by_cases heq : c.1 = id
        · exact Or.inl ⟨heq, Or.inl (hallocated c hc heq)⟩
        · exact Or.inr ⟨heq, hc⟩
      · exact Or.inl ⟨hc.1.symm, Or.inr hc.2⟩
  · rfl
  · rfl
  · exact fun hid => hid

/-- Taking a whole segment, whether recycled or new. -/
theorem allocateSpec_createSegment {r : SegmentRegistry} (h : r.Sound)
    {id : SegmentId} {pool : Pool} {size : Nat} (hpos : 0 < size)
    (hsize : size ≤ r.pool.segmentSize)
    (hcreate : r.pool.createSegment = some (id, pool)) :
    AllocateSpec r size ⟨id, 0, size⟩
      { r with pool := pool, spaces := r.spaces.set id ⟨[], size⟩ } := by
  have hspace : forall limit, size ≤ limit -> (SegmentSpace.mk [] size).Sound limit := by
    intro limit hle
    exact
      { separated := ⟨List.Pairwise.nil, fun s hs => by cases hs⟩
        below := fun s hs => by cases hs
        tail_le := hle }
  have hbyte : forall b, (SegmentSpace.mk [] size).Allocated b <-> b < size := by
    intro b
    exact ⟨fun hb => hb.1, fun hb => ⟨hb, not_covered_nil⟩⟩
  -- Everything the two ways to obtain a segment have in common.
  have hpool : pool.segmentSize = r.pool.segmentSize ∧
      r.spaces.get id = none ∧
      (forall k, (k ∈ pool.segments ∧ k ∉ pool.emptySegmentIds) <->
        k = id ∨ (k ∈ r.pool.segments ∧ k ∉ r.pool.emptySegmentIds)) ∧
      (forall k, k ∈ pool.emptySegmentIds -> k ∈ pool.segments) ∧
      pool.segments.Nodup ∧ pool.emptySegmentIds.Nodup ∧
      (forall k, k ∈ pool.segments -> k < pool.nextSegmentId) ∧
      pool.totalUsed = pool.segmentSize * pool.segments.length ∧
      pool.totalUsed ≤ pool.limit ∧
      (forall k, k ∈ r.pool.segments -> k ∈ pool.segments) := by
    have hunregistered : forall k,
        ¬ (k ∈ r.pool.segments ∧ k ∉ r.pool.emptySegmentIds) ->
          r.spaces.get k = none := by
      intro k hk
      cases hget : r.spaces.get k with
      | none => rfl
      | some space => exact absurd ((h.registered k).mp ⟨space, hget⟩) hk
    unfold Pool.createSegment at hcreate
    cases hempty : r.pool.emptySegmentIds with
    | cons first rest =>
        rw [hempty] at hcreate
        simp only [Option.some.injEq, Prod.mk.injEq] at hcreate
        rcases hcreate with ⟨hid, hpool⟩
        subst hid hpool
        have hnodup : first ∉ rest ∧ rest.Nodup :=
          List.nodup_cons.mp (hempty ▸ h.nodupEmpty)
        have hfirst : first ∈ r.pool.segments := h.empty (by rw [hempty]; simp)
        refine ⟨rfl, hunregistered first ?_, ?_, ?_, h.nodupSegments, hnodup.2,
          fun k hk => h.fresh hk, h.totalUsed, h.limit, fun k hk => hk⟩
        · intro hk
          exact hk.2 (by rw [hempty]; simp)
        · intro k
          simp only [List.mem_cons, not_or]
          by_cases heq : k = first
          · rw [heq]
            simp [hfirst, hnodup.1]
          · simp [heq]
        · intro k hk
          exact h.empty (by rw [hempty]; exact List.mem_cons_of_mem first hk)
    | nil =>
        rw [hempty] at hcreate
        by_cases hlimit : r.pool.limit < r.pool.totalUsed + r.pool.segmentSize
        · simp [if_pos hlimit] at hcreate
        · simp only [if_neg hlimit, Option.some.injEq, Prod.mk.injEq] at hcreate
          rcases hcreate with ⟨hid, hpool⟩
          subst hid hpool
          have hnew : r.pool.nextSegmentId ∉ r.pool.segments :=
            fun hk => absurd (h.fresh hk) (lt_irrefl _)
          refine ⟨rfl, hunregistered _ (fun hk => hnew hk.1), ?_, ?_, ?_, ?_, ?_, ?_, ?_, ?_⟩
          · intro k
            simp only [List.mem_append, List.mem_singleton]
            simp [or_comm]
          · intro k hk
            cases hk
          · exact List.nodup_append.mpr
              ⟨h.nodupSegments, List.nodup_singleton _, fun a ha b hb heq =>
                hnew (by rw [List.mem_singleton.mp hb] at heq; rw [← heq]; exact ha)⟩
          · exact List.nodup_nil
          · intro k hk
            rcases List.mem_append.mp hk with hk | hk
            · exact lt_trans (h.fresh hk) (Nat.lt_succ_self _)
            · rw [List.mem_singleton.mp hk]
              exact Nat.lt_succ_self _
          · simp only [List.length_append, List.length_singleton]
            rw [h.totalUsed]
            ring
          · exact not_lt.mp hlimit
          · exact fun k hk => List.mem_append_left _ hk
  rcases hpool with ⟨hpoolSize, hnone, hregistered, hemptyMem, hnodup, hnodupEmpty,
    hfresh, htotal, hlimit, hmono⟩
  have hnotAllocated : forall b, ¬ r.Allocated (id, b) := by
    intro b hb
    rcases hb with ⟨space, hspace, _⟩
    rw [hnone] at hspace
    cases hspace
  have hget : forall {k s}, (r.spaces.set id ⟨[], size⟩).get k = some s ->
      (s = ⟨[], size⟩) ∨ r.spaces.get k = some s := by
    intro k s hk
    rw [OrderedMap.get_set] at hk
    by_cases heq : k = id
    · rw [if_pos heq] at hk
      exact Or.inl (Option.some.inj hk).symm
    · rw [if_neg heq] at hk
      exact Or.inr hk
  have hdom : forall k, (exists s, (r.spaces.set id ⟨[], size⟩).get k = some s) <->
      k = id ∨ exists s, r.spaces.get k = some s := by
    intro k
    rw [OrderedMap.get_set]
    by_cases heq : k = id
    · simp [heq]
    · simp [heq]
  constructor
  · exact
      { space := fun hk => by
          rcases hget hk with heq | hk
          · rw [heq]
            exact hspace _ (by rw [hpoolSize]; exact hsize)
          · have hs := h.space hk
            exact ⟨hs.separated, hs.below, by rw [hpoolSize]; exact hs.tail_le⟩
        live := fun hk => by
          rcases hget hk with heq | hk
          · rw [heq]
            exact ⟨0, (hbyte 0).mpr hpos⟩
          · exact h.live hk
        closed := fun hk => (hdom _).mpr (Or.inr (h.closed hk))
        registered := fun k => by
          rw [hdom k, hregistered k, h.registered k]
        empty := fun hk => hemptyMem _ hk
        nodupSegments := hnodup
        nodupEmpty := hnodupEmpty
        fresh := fun hk => hfresh _ hk
        totalUsed := htotal
        limit := hlimit }
  · rfl
  · exact hpos
  · intro hk
    rcases h.closed hk with ⟨space, hspace⟩
    rw [hnone] at hspace
    cases hspace
  · intro c hcover hc
    rcases c with ⟨seg, b⟩
    have hseg : id = seg := hcover.1
    subst hseg
    exact hnotAllocated b hc
  · intro c
    have hset : SegmentRegistry.Allocated
        { r with pool := pool, spaces := r.spaces.set id ⟨[], size⟩ } c <->
        (c.1 = id ∧ (SegmentSpace.mk [] size).Allocated c.2) ∨
          (c.1 ≠ id ∧ r.Allocated c) := allocated_setSpace (r := r)
    rw [hset, hbyte]
    rcases c with ⟨seg, b⟩
    by_cases heq : seg = id
    · subst heq
      unfold Extent.Covers
      simp [hnotAllocated b]
    · have hne : id ≠ seg := fun h' => heq h'.symm
      unfold Extent.Covers
      simp [heq, hne]
  · exact hpoolSize
  · rfl
  · exact fun hid => hmono _ hid

theorem allocate_spec {r : SegmentRegistry} (h : r.Sound) {size : Nat}
    {noGrow : Bool} {e : Extent} {r' : SegmentRegistry}
    (halloc : r.allocate size noGrow = some (e, r')) : AllocateSpec r size e r' := by
  unfold allocate at halloc
  by_cases hzero : size = 0
  · simp [hzero] at halloc
  rw [if_neg hzero] at halloc
  have hpos : 0 < size := Nat.pos_of_ne_zero hzero
  by_cases hbig : r.pool.segmentSize < size
  · simp [hbig] at halloc
  rw [if_neg hbig] at halloc
  have hsize : size ≤ r.pool.segmentSize := not_lt.mp hbig
  cases hbest : bestFit size r.closed r.spaces.entries none with
  | some fit =>
      simp only [hbest, Option.some.injEq, Prod.mk.injEq] at halloc
      rcases halloc with ⟨he, hr⟩
      rcases bestFit_cases hbest with hnone | ⟨space, hmem, hopen, hextent, hfits⟩
      · cases hnone
      have hget : r.spaces.get fit.segmentId = some space :=
        OrderedMap.mem_entries_iff.mp hmem
      rw [hget, Option.getD_some] at hr
      subst he hr
      have hspace := h.space hget
      have hbytes : forall b, Covered (carve space.free fit.index size) b <->
          Covered space.free b ∧ ¬ (Span.mk fit.extent.offset size).Covers b :=
        fun b => covered_carve hspace.separated hextent hfits
      have hstop : fit.extent.stop ≤ space.tail :=
        hspace.below _ (List.mem_of_getElem? hextent)
      have hcovered : forall b, fit.extent.offset ≤ b ∧ b < fit.extent.offset + size ->
          Covered space.free b ∧ b < space.tail := by
        intro b hb
        unfold Span.stop at hstop
        refine ⟨⟨fit.extent, List.mem_of_getElem? hextent, hb.1, ?_⟩, by omega⟩
        unfold Span.stop
        omega
      refine allocateSpec_setSpace h hget hpos hopen ?_ ?_ ?_
      · exact
          { separated := separated_carve hspace.separated hextent hfits
            below := below_carve hspace.below hextent hfits
            tail_le := hspace.tail_le }
      · intro b hb hold
        exact hold.2 (hcovered b hb).1
      · intro b
        unfold SegmentSpace.Allocated
        show b < space.tail ∧ ¬ Covered (carve space.free fit.index size) b <-> _
        rw [hbytes b]
        by_cases hin : (Span.mk fit.extent.offset size).Covers b
        · have hb := hcovered b hin
          exact ⟨fun _ => Or.inr hin, fun _ => ⟨hb.2, fun hcov => hcov.2 hin⟩⟩
        · have hout : ¬ (fit.extent.offset ≤ b ∧ b < fit.extent.offset + size) := hin
          simp [hin, hout]
  | none =>
      simp only [hbest] at halloc
      cases htail : r.tailFit size with
      | some entry =>
          rcases entry with ⟨segmentId, space⟩
          simp only [htail, Option.some.injEq, Prod.mk.injEq] at halloc
          rcases halloc with ⟨he, hr⟩
          subst he hr
          have hmem : (segmentId, space) ∈ r.spaces.entries :=
            List.mem_of_find?_eq_some htail
          have hcond : segmentId ∉ r.closed ∧
              space.tail + size ≤ r.pool.segmentSize := by
            simpa using List.find?_some htail
          have hget := OrderedMap.mem_entries_iff.mp hmem
          have hspace := h.space hget
          refine allocateSpec_setSpace h hget hpos hcond.1 ?_ ?_ ?_
          · exact
              { separated := hspace.separated
                below := fun s hs => le_trans (hspace.below s hs) (Nat.le_add_right _ _)
                tail_le := hcond.2 }
          · intro b hb hold
            have hlt := hold.1
            omega
          · intro b
            unfold SegmentSpace.Allocated
            show b < space.tail + size ∧ ¬ Covered space.free b <-> _
            by_cases hcov : Covered space.free b
            · have hlt : b < space.tail := by
                rcases hcov with ⟨s, hs, hb⟩
                exact lt_of_lt_of_le hb.2 (hspace.below s hs)
              simp [hcov]
              omega
            · simp [hcov]
              omega
      | none =>
          simp only [htail] at halloc
          by_cases hgrow : noGrow = true
          · simp [hgrow] at halloc
          simp only [if_neg hgrow] at halloc
          cases hcreate : r.pool.createSegment with
          | none => simp [hcreate] at halloc
          | some created =>
              rcases created with ⟨segmentId, pool⟩
              simp only [hcreate, Option.some.injEq, Prod.mk.injEq] at halloc
              rcases halloc with ⟨he, hr⟩
              subst he hr
              exact allocateSpec_createSegment h hpos hsize hcreate

/-!
# Release
-/

/-- What freeing an allocated extent does. -/
structure ReleaseSpec (r : SegmentRegistry) (e : Extent) (r' : SegmentRegistry) :
    Prop where
  sound : r'.Sound
  allocated : forall c, r'.Allocated c <-> r.Allocated c ∧ ¬ e.Covers c
  segmentSize : r'.pool.segmentSize = r.pool.segmentSize
  segments : r'.pool.segments = r.pool.segments

/-- The one space an extent is released into, before and after. -/
structure ReleasedSpace (r : SegmentRegistry) (e : Extent)
    (space space' : SegmentSpace) : Prop where
  get : r.spaces.get e.segmentId = some space
  eq : r.release e = { r with spaces := r.spaces.set e.segmentId space' }
  sound : space'.Sound r.pool.segmentSize
  allocated : forall b, space'.Allocated b <->
    space.Allocated b ∧ ¬ (Span.mk e.offset e.length).Covers b

theorem release_space {r : SegmentRegistry} (h : r.Sound) {e : Extent}
    (hpos : 0 < e.length) (hall : forall c, e.Covers c -> r.Allocated c) :
    exists space space', ReleasedSpace r e space space' := by
  have hfirst : e.Covers (e.segmentId, e.offset) :=
    ⟨rfl, le_rfl, Nat.lt_add_of_pos_right hpos⟩
  rcases hall _ hfirst with ⟨space, hget, _⟩
  have hget : r.spaces.get e.segmentId = some space := hget
  have hspace := h.space hget
  have hcover : forall b, (Span.mk e.offset e.length).Covers b ->
      space.Allocated b := by
    intro b hb
    rcases hall (e.segmentId, b) ⟨rfl, hb⟩ with ⟨found, hfound, hbyte⟩
    rw [hget] at hfound
    rw [Option.some.inj hfound]
    exact hbyte
  have hinsert := insertMerged_spec ⟨e.offset, e.length⟩
    hspace.separated hpos (fun b hb => (hcover b hb).2)
  have hstop : (Span.mk e.offset e.length).stop ≤ space.tail := by
    have hlast := (hcover (e.offset + e.length - 1) (by
      unfold Span.Covers Span.stop
      simp only
      omega)).1
    unfold Span.stop
    simp only
    omega
  refine ⟨space,
    { space with free := insertMerged space.free ⟨e.offset, e.length⟩ }, ?_⟩
  constructor
  · exact hget
  · unfold release
    rw [hget]
  · exact
      { separated := hinsert.separated
        below := hinsert.below _ hspace.below hstop
        tail_le := hspace.tail_le }
  · intro b
    unfold SegmentSpace.Allocated
    rw [hinsert.covered b, not_or, and_assoc]

theorem ReleasedSpace.allocated_release {r : SegmentRegistry} {e : Extent}
    {space space' : SegmentSpace} (h : ReleasedSpace r e space space')
    (c : SegmentId × Nat) :
    (r.release e).Allocated c <-> r.Allocated c ∧ ¬ e.Covers c := by
  rw [h.eq, allocated_setSpace, h.allocated]
  constructor
  · intro hc
    rcases hc with ⟨heq, hb, hout⟩ | ⟨hne, hc⟩
    · exact ⟨⟨space, by rw [heq]; exact h.get, hb⟩, fun hcov => hout hcov.2⟩
    · exact ⟨hc, fun hcov => hne hcov.1.symm⟩
  · intro hc
    by_cases heq : c.1 = e.segmentId
    · rcases hc.1 with ⟨found, hfound, hb⟩
      rw [heq, h.get] at hfound
      rw [← Option.some.inj hfound] at hb
      exact Or.inl ⟨heq, hb, fun hcov => hc.2 ⟨heq.symm, hcov⟩⟩
    · exact Or.inr ⟨heq, hc.1⟩

/-- Releasing part of a segment: some other byte of it stays allocated. -/
theorem release_spec {r : SegmentRegistry} (h : r.Sound) {e : Extent}
    (hpos : 0 < e.length) (hall : forall c, e.Covers c -> r.Allocated c)
    (hrest : exists b, r.Allocated (e.segmentId, b) ∧ ¬ e.Covers (e.segmentId, b)) :
    ReleaseSpec r e (r.release e) := by
  rcases release_space h hpos hall with ⟨space, space', hspace⟩
  rcases hrest with ⟨b, hb, hout⟩
  have hlive : exists b, space'.Allocated b := by
    rcases hb with ⟨found, hfound, hb⟩
    rw [hspace.get] at hfound
    rw [← Option.some.inj hfound] at hb
    exact ⟨b, (hspace.allocated b).mpr ⟨hb, fun hcov => hout ⟨rfl, hcov⟩⟩⟩
  constructor
  · rw [hspace.eq]
    exact h.setSpace hspace.get hspace.sound hlive
  · exact hspace.allocated_release
  · rw [hspace.eq]
  · rw [hspace.eq]

/-- Retiring a registered segment without allocated bytes to the pool. -/
theorem sound_unregister {r r' : SegmentRegistry} (id : SegmentId)
    (hregistered : forall k, k ≠ id -> r'.spaces.get k = r.spaces.get k)
    (hnone : r'.spaces.get id = none)
    (hpool : r'.pool = { r.pool with emptySegmentIds := r.pool.emptySegmentIds ++ [id] })
    (hclosed : r'.closed = r.closed.erase id)
    (h : r.Sound) (hid : exists space, r.spaces.get id = some space) : r'.Sound := by
  have hkeep : forall {k s}, r'.spaces.get k = some s ->
      k ≠ id ∧ r.spaces.get k = some s := by
    intro k s hk
    by_cases heq : k = id
    · rw [heq, hnone] at hk
      cases hk
    · rw [hregistered k heq] at hk
      exact ⟨heq, hk⟩
  rcases (h.registered id).mp hid with ⟨hmem, hnotEmpty⟩
  exact
    { space := fun hk => by
        rw [hpool]
        exact h.space (hkeep hk).2
      live := fun hk => h.live (hkeep hk).2
      closed := fun {k} hk => by
        rw [hclosed, Finset.mem_erase] at hk
        rw [hregistered k hk.1]
        exact h.closed hk.2
      registered := fun k => by
        rw [hpool]
        simp only [List.mem_append, List.mem_singleton, not_or]
        by_cases heq : k = id
        · rw [heq, hnone]
          simp
        · rw [hregistered k heq, h.registered k]
          exact ⟨fun hk => ⟨hk.1, hk.2, heq⟩, fun hk => ⟨hk.1, hk.2.1⟩⟩
      empty := fun hk => by
        rw [hpool] at hk ⊢
        rcases List.mem_append.mp hk with hk | hk
        · exact h.empty hk
        · rw [List.mem_singleton.mp hk]
          exact hmem
      nodupSegments := by
        rw [hpool]
        exact h.nodupSegments
      nodupEmpty := by
        rw [hpool]
        refine List.nodup_append.mpr ⟨h.nodupEmpty, List.nodup_singleton _, ?_⟩
        intro a ha b hb heq
        rw [List.mem_singleton.mp hb] at heq
        exact hnotEmpty (heq ▸ ha)
      fresh := fun hk => by
        rw [hpool] at hk ⊢
        exact h.fresh hk
      totalUsed := by
        rw [hpool]
        exact h.totalUsed
      limit := by
        rw [hpool]
        exact h.limit }

theorem releaseExtent_spec {r : SegmentRegistry} (h : r.Sound) {e : Extent}
    (hpos : 0 < e.length) (hall : forall c, e.Covers c -> r.Allocated c) :
    ReleaseSpec r e (r.releaseExtent e) := by
  rcases release_space h hpos hall with ⟨space, space', hspace⟩
  have hmem : e.segmentId ∈ r.pool.segments :=
    ((h.registered e.segmentId).mp ⟨space, hspace.get⟩).1
  have hspaces : (r.release e).spaces = r.spaces.set e.segmentId space' := by
    rw [hspace.eq]
  have hused : (r.release e).used e.segmentId = space'.used := by
    unfold used
    rw [hspaces]
    simp
  unfold releaseExtent
  rw [if_pos hmem]
  simp only
  by_cases hzero : (r.release e).used e.segmentId = 0
  · rw [if_pos hzero]
    have hnone : forall b, ¬ space'.Allocated b :=
      (SegmentSpace.used_eq_zero_iff hspace.sound).mp (hused ▸ hzero)
    have hpool : ((r.release e).unregister e.segmentId).pool.freeSegment e.segmentId =
        { r.pool with emptySegmentIds := r.pool.emptySegmentIds ++ [e.segmentId] } := by
      unfold unregister Pool.freeSegment
      rw [hspace.eq]
      exact if_pos hmem
    have hget : forall k, ((r.release e).unregister e.segmentId).spaces.get k =
        if k = e.segmentId then none else r.spaces.get k := by
      intro k
      show ((r.release e).spaces.delete e.segmentId).get k = _
      rw [OrderedMap.get_delete, hspaces]
      by_cases hk : k = e.segmentId
      · rw [if_pos hk, if_pos hk]
      · rw [if_neg hk, if_neg hk, OrderedMap.get_set_ne _ _ hk]
    constructor
    · refine sound_unregister (r := r) e.segmentId ?_ ?_ hpool ?_ h
        ⟨space, hspace.get⟩
      · intro k hk
        exact (hget k).trans (if_neg hk)
      · exact (hget e.segmentId).trans (if_pos rfl)
      · unfold unregister
        rw [hspace.eq]
    · intro c
      rw [← hspace.allocated_release c]
      constructor
      · intro hc
        rcases hc with ⟨s, hs, hb⟩
        have hs : (if c.1 = e.segmentId then none else r.spaces.get c.1) = some s :=
          (hget c.1).symm.trans hs
        by_cases heq : c.1 = e.segmentId
        · rw [if_pos heq] at hs
          cases hs
        · rw [if_neg heq] at hs
          refine ⟨s, ?_, hb⟩
          rw [hspaces, OrderedMap.get_set_ne _ _ heq]
          exact hs
      · intro hc
        rcases hc with ⟨s, hs, hb⟩
        rw [hspaces, OrderedMap.get_set] at hs
        by_cases heq : c.1 = e.segmentId
        · rw [if_pos heq] at hs
          rw [← Option.some.inj hs] at hb
          exact absurd hb (hnone c.2)
        · rw [if_neg heq] at hs
          exact ⟨s, (hget c.1).trans ((if_neg heq).trans hs), hb⟩
    · rw [hpool]
    · rw [hpool]
  · rw [if_neg hzero]
    have hlive : exists b, space'.Allocated b := by
      by_contra hnone
      exact hzero (hused ▸ (SegmentSpace.used_eq_zero_iff hspace.sound).mpr
        (fun b hb => hnone ⟨b, hb⟩))
    constructor
    · rw [hspace.eq]
      exact h.setSpace hspace.get hspace.sound hlive
    · exact hspace.allocated_release
    · rw [hspace.eq]
    · rw [hspace.eq]

/-!
# Ownership

The registry's view of who owns what: its allocated bytes are exactly covered
by a multiset of live extents.
-/

structure Owned (r : SegmentRegistry) (live : Multiset Extent) : Prop where
  sound : r.Sound
  pos : forall e, e ∈ live -> 0 < e.length
  exact_ : ExactCover Extent.Covers r.Allocated live

theorem owned_new (limit segmentSize : Nat) : (new limit segmentSize).Owned 0 where
  sound := sound_new limit segmentSize
  pos := fun e he => absurd he (Multiset.notMem_zero e)
  exact_ := ExactCover.nil (not_allocated_new limit segmentSize)

theorem Owned.allocated {r : SegmentRegistry} {live : Multiset Extent}
    (h : r.Owned live) {e : Extent} (he : e ∈ live) {c : SegmentId × Nat}
    (hc : e.Covers c) : r.Allocated c :=
  h.exact_.region_of_mem he hc

theorem Owned.allocate {r r' : SegmentRegistry} {live : Multiset Extent}
    (h : r.Owned live) {size : Nat} {noGrow : Bool} {e : Extent}
    (halloc : r.allocate size noGrow = some (e, r')) : r'.Owned (live + {e}) := by
  have hspec := allocate_spec h.sound halloc
  constructor
  · exact hspec.sound
  · intro x hx
    rcases Multiset.mem_add.mp hx with hx | hx
    · exact h.pos x hx
    · rw [Multiset.mem_singleton.mp hx, hspec.length]
      exact hspec.pos
  · exact (h.exact_.add hspec.fresh).congr hspec.allocated

/-- No later allocation overlaps a live extent. -/
theorem Owned.allocate_disjoint {r r' : SegmentRegistry} {live : Multiset Extent}
    (h : r.Owned live) {size : Nat} {noGrow : Bool} {e new : Extent} (he : e ∈ live)
    (halloc : r.allocate size noGrow = some (new, r')) {c : SegmentId × Nat}
    (hc : e.Covers c) : ¬ new.Covers c := by
  intro hnew
  exact (allocate_spec h.sound halloc).fresh c hnew (h.allocated he hc)

theorem Owned.of_releaseSpec {r r' : SegmentRegistry} {live : Multiset Extent}
    {e : Extent} (h : r.Owned (live + {e})) (hspec : ReleaseSpec r e r') :
    r'.Owned live where
  sound := hspec.sound
  pos := fun x hx => h.pos x (Multiset.mem_add.mpr (Or.inl hx))
  exact_ := h.exact_.remove.congr hspec.allocated

theorem Owned.releaseExtent {r : SegmentRegistry} {live : Multiset Extent}
    {e : Extent} (h : r.Owned (live + {e})) : (r.releaseExtent e).Owned live :=
  h.of_releaseSpec (releaseExtent_spec h.sound (h.pos e (by simp))
    (fun _ hc => h.allocated (by simp) hc))

/-- Every registered segment keeps a live byte of {lit}`base`. -/
def Anchored (r : SegmentRegistry) (base : Multiset Extent) : Prop :=
  forall id space, r.spaces.get id = some space ->
    exists e b, e ∈ base ∧ e.Covers (id, b)

theorem Owned.anchored {r : SegmentRegistry} {live : Multiset Extent}
    (h : r.Owned live) : r.Anchored live := by
  intro id space hget
  rcases h.sound.live hget with ⟨b, hb⟩
  rcases h.exact_.exists_owner (c := (id, b)) ⟨space, hget, hb⟩ with ⟨e, he, hc⟩
  exact ⟨e, b, he, hc⟩

/-- Plain {lit}`release` of an extent beside an anchor. -/
theorem Owned.release {r : SegmentRegistry} {live : Multiset Extent} {e : Extent}
    (h : r.Owned (live + {e})) (hanchor : r.Anchored live) :
    (r.release e).Owned live ∧ (r.release e).Anchored live := by
  have hpos := h.pos e (by simp)
  have hall : forall c, e.Covers c -> r.Allocated c :=
    fun _ hc => h.allocated (by simp) hc
  rcases release_space h.sound hpos hall with ⟨space, space', hspace⟩
  rcases hanchor _ _ hspace.get with ⟨o, b, ho, hcover⟩
  have hout : ¬ e.Covers (e.segmentId, b) := by
    rcases Multiset.exists_cons_of_mem ho with ⟨rest, hrest⟩
    have hexact := h.exact_
    rw [hrest, ← Multiset.singleton_add, add_comm {o} rest] at hexact
    exact hexact.disjoint hcover
  have hspec := release_spec h.sound hpos hall
    ⟨b, h.allocated (Multiset.mem_add.mpr (Or.inl ho)) hcover, hout⟩
  refine ⟨h.of_releaseSpec hspec, ?_⟩
  intro id s hs
  rw [hspace.eq, OrderedMap.get_set] at hs
  by_cases heq : id = e.segmentId
  · rw [heq]
    exact ⟨o, b, ho, hcover⟩
  · rw [if_neg heq] at hs
    exact hanchor _ _ hs

/-- Without growing, an allocation rewrites the space of a registered segment. -/
theorem allocate_within {r r' : SegmentRegistry} {size : Nat} {e : Extent}
    (halloc : r.allocate size true = some (e, r')) :
    exists old space, r.spaces.get e.segmentId = some old ∧
      r' = { r with spaces := r.spaces.set e.segmentId space } := by
  unfold SegmentRegistry.allocate at halloc
  by_cases hzero : size = 0
  · simp [hzero] at halloc
  rw [if_neg hzero] at halloc
  by_cases hbig : r.pool.segmentSize < size
  · simp [hbig] at halloc
  rw [if_neg hbig] at halloc
  cases hbest : bestFit size r.closed r.spaces.entries none with
  | some fit =>
      simp only [hbest, Option.some.injEq, Prod.mk.injEq] at halloc
      rcases bestFit_cases hbest with hnone | ⟨space, hmem, _⟩
      · cases hnone
      · rw [← halloc.1, ← halloc.2]
        exact ⟨space, _, OrderedMap.mem_entries_iff.mp hmem, rfl⟩
  | none =>
      simp only [hbest] at halloc
      cases htail : r.tailFit size with
      | some entry =>
          simp only [htail, Option.some.injEq, Prod.mk.injEq] at halloc
          rw [← halloc.1, ← halloc.2]
          exact ⟨entry.2, _, OrderedMap.mem_entries_iff.mp
            (List.mem_of_find?_eq_some htail), rfl⟩
      | none => simp [htail] at halloc

theorem Anchored.allocate {r r' : SegmentRegistry} {base : Multiset Extent}
    (h : r.Anchored base) {size : Nat} {e : Extent}
    (halloc : r.allocate size true = some (e, r')) : r'.Anchored base := by
  rcases allocate_within halloc with ⟨old, space, hold, hr⟩
  intro id s hget
  rw [hr] at hget
  have hget : (r.spaces.set e.segmentId space).get id = some s := hget
  rw [OrderedMap.get_set] at hget
  by_cases heq : id = e.segmentId
  · rw [heq]
    exact h _ _ hold
  · rw [if_neg heq] at hget
    exact h _ _ hget

@[simp] theorem release_pool (r : SegmentRegistry) (e : Extent) :
    (r.release e).pool = r.pool := by
  unfold release
  cases r.spaces.get e.segmentId <;> rfl

@[simp] theorem release_closed (r : SegmentRegistry) (e : Extent) :
    (r.release e).closed = r.closed := by
  unfold release
  cases r.spaces.get e.segmentId <;> rfl

theorem createSegment_limit {pool pool' : Pool} {id : SegmentId}
    (h : pool.createSegment = some (id, pool')) : pool'.limit = pool.limit := by
  unfold Pool.createSegment at h
  cases hempty : pool.emptySegmentIds with
  | cons first rest =>
      rw [hempty] at h
      rw [← (Prod.mk.inj (Option.some.inj h)).2]
  | nil =>
      rw [hempty] at h
      dsimp only at h
      split_ifs at h
      rw [← (Prod.mk.inj (Option.some.inj h)).2]

theorem allocate_limit {r r' : SegmentRegistry} {size : Nat} {noGrow : Bool} {e : Extent}
    (halloc : r.allocate size noGrow = some (e, r')) : r'.pool.limit = r.pool.limit := by
  unfold SegmentRegistry.allocate at halloc
  by_cases hzero : size = 0
  · simp [hzero] at halloc
  rw [if_neg hzero] at halloc
  by_cases hbig : r.pool.segmentSize < size
  · simp [hbig] at halloc
  rw [if_neg hbig] at halloc
  cases hbest : bestFit size r.closed r.spaces.entries none with
  | some fit =>
      simp only [hbest, Option.some.injEq, Prod.mk.injEq] at halloc
      rw [← halloc.2]
  | none =>
      simp only [hbest] at halloc
      cases htail : r.tailFit size with
      | some entry =>
          simp only [htail, Option.some.injEq, Prod.mk.injEq] at halloc
          rw [← halloc.2]
      | none =>
          simp only [htail] at halloc
          split_ifs at halloc
          cases hcreate : r.pool.createSegment with
          | none => simp [hcreate] at halloc
          | some created =>
              simp only [hcreate, Option.some.injEq, Prod.mk.injEq] at halloc
              rw [← halloc.2]
              exact createSegment_limit hcreate

theorem releaseExtent_cases (r : SegmentRegistry) (e : Extent) :
    r.releaseExtent e = r ∨ r.releaseExtent e = r.release e ∨
      (e.segmentId ∈ r.pool.segments ∧
        r.releaseExtent e =
          { (r.release e).unregister e.segmentId with
            pool := r.pool.freeSegment e.segmentId }) := by
  unfold releaseExtent
  by_cases hmem : e.segmentId ∈ r.pool.segments
  · rw [if_pos hmem]
    dsimp only
    by_cases hused : (r.release e).used e.segmentId = 0
    · rw [if_pos hused]
      refine Or.inr (Or.inr ⟨hmem, ?_⟩)
      show SegmentRegistry.mk ((r.release e).pool.freeSegment e.segmentId) _ _ = _
      rw [release_pool]
    · rw [if_neg hused]
      exact Or.inr (Or.inl rfl)
  · rw [if_neg hmem]
    exact Or.inl rfl

theorem releaseExtent_limit (r : SegmentRegistry) (e : Extent) :
    (r.releaseExtent e).pool.limit = r.pool.limit := by
  rcases releaseExtent_cases r e with heq | heq | ⟨hmem, heq⟩
  · rw [heq]
  · rw [heq, release_pool]
  · rw [heq]
    unfold Pool.freeSegment
    rw [if_pos hmem]

/-- Freeing bytes reopens a closed segment only by handing it back to the pool. -/
theorem releaseExtent_closed (r : SegmentRegistry) (e : Extent) :
    (r.releaseExtent e).closed = r.closed ∨
      ((r.releaseExtent e).closed = r.closed.erase e.segmentId ∧
        e.segmentId ∈ (r.releaseExtent e).pool.emptySegmentIds) := by
  rcases releaseExtent_cases r e with heq | heq | ⟨hmem, heq⟩
  · rw [heq]
    exact Or.inl rfl
  · rw [heq, release_closed]
    exact Or.inl rfl
  · rw [heq]
    refine Or.inr ⟨?_, ?_⟩
    · show (r.release e).closed.erase e.segmentId = _
      rw [release_closed]
    · show e.segmentId ∈ (r.pool.freeSegment e.segmentId).emptySegmentIds
      unfold Pool.freeSegment
      rw [if_pos hmem]
      exact List.mem_append_right _ (List.mem_singleton.mpr rfl)

end SegmentRegistry
end SharedMemoryFs
