import SharedMemoryFs.Cache.Usage

/-!
# The allocator over whole runs

What holds of the registry after any sequence of operations, when it refuses an
allocation, and what a compaction plans.
-/

namespace SharedMemoryFs

open Foundation

namespace Usage

variable {limit segmentSize : Nat} {u v : Usage} {id : SegmentId}

/-!
# Closed segments
-/

/-- Nothing else is allocated in a closed segment, and it stays closed unless it
goes back to the pool. -/
theorem Touches.shut (h : Touches u v) (howned : u.Owned)
    (hclosed : id ∈ u.cache.registry.closed)
    (hempty : id ∉ v.cache.registry.pool.emptySegmentIds) :
    id ∈ v.cache.registry.closed ∧
      forall e, e ∈ v.extents -> e.segmentId = id -> e ∈ u.extents := by
  cases h with
  | keeps hregistry hsub =>
      rw [hregistry]
      exact ⟨hclosed, fun e he _ => hsub e he⟩
  | allocates size e halloc hsub =>
      have hspec := SegmentRegistry.allocate_spec howned.sound halloc
      rw [hspec.closed]
      refine ⟨hclosed, fun x hx hid => ?_⟩
      rcases hsub x hx with hold | heq
      · exact hold
      · rw [heq] at hid
        rw [← hid] at hclosed
        exact absurd hclosed hspec.open_
  | releases e hregistry hsub =>
      refine ⟨?_, fun x hx _ => hsub x hx⟩
      rw [hregistry] at hempty ⊢
      rcases SegmentRegistry.releaseExtent_closed u.cache.registry e with heq | ⟨heq, hmem⟩
      · rw [heq]
        exact hclosed
      · rw [heq]
        refine Finset.mem_erase.mpr ⟨?_, hclosed⟩
        intro hid
        rw [hid] at hempty
        exact hempty hmem

theorem put_shut {slot : Slot} {entry : Entry}
    (hput : ¬ (Operation.put slot entry).PutsInto id)
    (hclosed : id ∈ u.cache.registry.closed) :
    id ∈ (u.apply (Operation.put slot entry)).cache.registry.closed := by
  show id ∈ (u.cache.put slot entry).1.registry.closed
  unfold FilesystemCache.put
  cases hkind : entry.kind with
  | disk path => exact hclosed
  | shared segmentId offset length =>
      refine Finset.mem_erase.mpr ⟨?_, hclosed⟩
      intro heq
      rw [← heq] at hkind
      exact hput ⟨slot, entry, offset, length, rfl, hkind⟩

theorem compact_shut (howned : u.Owned) (threshold : ℚ)
    (hclosed : id ∈ u.cache.registry.closed) :
    id ∈ (u.compact threshold).cache.registry.closed ∧
      forall e, e ∈ (u.compact threshold).extents -> e.segmentId = id -> e ∈ u.extents := by
  unfold Usage.compact
  rcases hresult : u.cache.compact threshold with ⟨cache, _ | moves⟩
  · refine ⟨?_, fun e he _ => he⟩
    show id ∈ cache.registry.closed
    rw [(FilesystemCache.compact_none howned hresult).2]
    exact hclosed
  · rcases FilesystemCache.compact_plan howned hresult with ⟨target, hplan⟩
    constructor
    · show id ∈ cache.registry.closed
      rw [hplan.closed]
      exact Finset.mem_insert_of_mem hclosed
    · intro e he hid
      rw [mem_extents_iff, owners_hand, filterMap_moves hplan.copied] at he
      rcases Multiset.mem_add.mp he with he | he
      · exact mem_extents_iff.mpr he
      · rcases List.mem_map.mp (Multiset.mem_coe.mp he) with ⟨move, hmove, heq⟩
        rw [← hid, ← heq] at hclosed
        exact absurd hclosed (hplan.outside move hmove).2

theorem step_shut (howned : u.Owned) {op : Operation} (hallowed : u.Allowed op)
    (hput : ¬ op.PutsInto id) (hclosed : id ∈ u.cache.registry.closed)
    (hempty : id ∉ (u.apply op).cache.registry.pool.emptySegmentIds) :
    id ∈ (u.apply op).cache.registry.closed ∧
      forall e, e ∈ (u.apply op).extents -> e.segmentId = id -> e ∈ u.extents := by
  cases op with
  | allocate file options => exact (touches_allocate u file options).shut howned hclosed hempty
  | filled file e data => exact (touches_filled data hallowed.1).shut howned hclosed hempty
  | failed file e data => exact (touches_failed u file e data).shut howned hclosed hempty
  | put slot entry => exact ⟨put_shut hput hclosed, fun e he _ => he⟩
  | remove slot => exact ⟨hclosed, fun e he _ => he⟩
  | free entry => exact (touches_free u entry).shut howned hclosed hempty
  | compact threshold => exact compact_shut howned threshold hclosed

theorem Shut.closed (h : Shut id u v) (howned : u.Owned)
    (hclosed : id ∈ u.cache.registry.closed) :
    v.Owned ∧ id ∈ v.cache.registry.closed ∧
      forall e, e ∈ v.extents -> e.segmentId = id -> e ∈ u.extents := by
  induction h with
  | refl => exact ⟨howned, hclosed, fun e he _ => he⟩
  | step op _ hallowed hput hempty ih =>
      rcases ih with ⟨hv, hvclosed, hvextents⟩
      rcases step_shut hv hallowed hput hvclosed hempty with ⟨hnext, hextents⟩
      exact ⟨hv.step hallowed, hnext, fun e he hid => hvextents e (hextents e he hid) hid⟩

/-!
# The size of the pool
-/

/-- The pool keeps the limit and the segment size it was made with. -/
def Sized (limit segmentSize : Nat) (u : Usage) : Prop :=
  u.cache.registry.pool.limit = limit ∧ u.cache.registry.pool.segmentSize = segmentSize

theorem Touches.sized (h : Touches u v) (howned : u.Owned) (hsized : Sized limit segmentSize u) :
    Sized limit segmentSize v := by
  cases h with
  | keeps hregistry _ =>
      unfold Sized
      rw [hregistry]
      exact hsized
  | allocates size e halloc _ =>
      constructor
      · exact (SegmentRegistry.allocate_limit halloc).trans hsized.1
      · exact (SegmentRegistry.allocate_spec howned.sound halloc).segmentSize.trans hsized.2
  | releases e hregistry _ =>
      unfold Sized
      rw [hregistry, SegmentRegistry.releaseExtent_limit]
      refine ⟨hsized.1, ?_⟩
      rcases SegmentRegistry.releaseExtent_cases u.cache.registry e with heq | heq | ⟨hmem, heq⟩
      · rw [heq]
        exact hsized.2
      · rw [heq, SegmentRegistry.release_pool]
        exact hsized.2
      · rw [heq]
        unfold Pool.freeSegment
        rw [if_pos hmem]
        exact hsized.2

theorem compact_sized (howned : u.Owned) (threshold : ℚ) (hsized : Sized limit segmentSize u) :
    Sized limit segmentSize (u.compact threshold) := by
  have hpool : (u.compact threshold).cache.registry.pool = u.cache.registry.pool := by
    unfold Usage.compact
    rcases hresult : u.cache.compact threshold with ⟨cache, _ | moves⟩
    · exact (FilesystemCache.compact_none howned hresult).1
    · rcases FilesystemCache.compact_plan howned hresult with ⟨target, hplan⟩
      exact hplan.pool
  unfold Sized
  rw [hpool]
  exact hsized

theorem put_pool (u : Usage) (slot : Slot) (entry : Entry) :
    (u.apply (Operation.put slot entry)).cache.registry.pool = u.cache.registry.pool := by
  show (u.cache.put slot entry).1.registry.pool = _
  unfold FilesystemCache.put
  cases entry.kind <;> rfl

theorem Reachable.sized (h : Reachable limit segmentSize u) : Sized limit segmentSize u := by
  induction h with
  | new => exact ⟨rfl, rfl⟩
  | step op hreach hallowed ih =>
      have howned := hreach.owned
      cases op with
      | allocate file options => exact (touches_allocate _ file options).sized howned ih
      | filled file e data => exact (touches_filled data hallowed.1).sized howned ih
      | failed file e data => exact (touches_failed _ file e data).sized howned ih
      | put slot entry =>
          unfold Sized
          rw [put_pool]
          exact ih
      | remove slot => exact ih
      | free entry => exact (touches_free _ entry).sized howned ih
      | compact threshold => exact compact_sized howned threshold ih

/-!
# The representation invariant
-/

/-- Byte {lit}`b` of segment {lit}`id` belongs to an extent in use. -/
def InUse (u : Usage) (id : SegmentId) (b : Nat) : Prop :=
  exists e, e ∈ u.extents ∧ e.Covers (id, b)

structure Represented (limit segmentSize : Nat) (u : Usage) : Prop where
  /-- Sorted, nonempty, disjoint and with a gap between neighbours. -/
  separated : forall id space, u.cache.registry.spaces.get id = some space ->
    Separated space.free
  within : forall id space, u.cache.registry.spaces.get id = some space ->
    Below space.tail space.free ∧ space.tail ≤ segmentSize
  disjoint : u.extents.Pairwise (fun e e' => forall cell, e.Covers cell -> ¬ e'.Covers cell)
  placed : forall e, e ∈ u.extents -> 0 < e.length ∧
    exists space, u.cache.registry.spaces.get e.segmentId = some space ∧
      e.offset + e.length ≤ space.tail
  tiled : forall id space, u.cache.registry.spaces.get id = some space -> forall b,
    (b < space.tail <-> Covered space.free b ∨ u.InUse id b) ∧
      ¬ (Covered space.free b ∧ u.InUse id b)
  live : forall id space, u.cache.registry.spaces.get id = some space ->
    exists b, u.InUse id b
  partition : forall id, id ∈ u.cache.registry.pool.segments <->
    Xor (exists space, u.cache.registry.spaces.get id = some space)
      (id ∈ u.cache.registry.pool.emptySegmentIds)
  closed : forall id, id ∈ u.cache.registry.closed ->
    exists space, u.cache.registry.spaces.get id = some space
  totalUsed : u.cache.registry.pool.totalUsed =
    segmentSize * u.cache.registry.pool.segments.length
  limited : u.cache.registry.pool.totalUsed ≤ limit

theorem Owned.inUse_iff (h : u.Owned) {b : Nat} :
    u.InUse id b <-> u.cache.registry.Allocated (id, b) := by
  rw [h.exact_.region_iff]
  constructor
  · intro huse
    rcases huse with ⟨e, he, hc⟩
    exact ⟨e, mem_extents_iff.mp he, hc⟩
  · intro huse
    rcases huse with ⟨e, he, hc⟩
    exact ⟨e, mem_extents_iff.mpr he, hc⟩

theorem Owned.inUse_of_get (h : u.Owned) {space : SegmentSpace}
    (hget : u.cache.registry.spaces.get id = some space) {b : Nat} :
    u.InUse id b <-> space.Allocated b := by
  rw [h.inUse_iff]
  constructor
  · intro halloc
    rcases halloc with ⟨found, hfound, hb⟩
    have hfound : u.cache.registry.spaces.get id = some found := hfound
    rw [hget] at hfound
    rw [Option.some.inj hfound]
    exact hb
  · intro hb
    exact ⟨space, hget, hb⟩

theorem Owned.placed (h : u.Owned) {e : Extent} (he : e ∈ u.extents) :
    exists space, u.cache.registry.spaces.get e.segmentId = some space ∧
      e.offset + e.length ≤ space.tail := by
  have hpos : 0 < e.length := h.pos e (mem_extents_iff.mp he)
  have hlast : e.Covers (e.segmentId, e.offset + e.length - 1) :=
    ⟨rfl, by dsimp only; omega, by dsimp only; omega⟩
  rcases h.allocated (mem_extents_iff.mp he) hlast with ⟨space, hget, hb⟩
  refine ⟨space, hget, ?_⟩
  have hlt : e.offset + e.length - 1 < space.tail := hb.1
  omega

theorem Owned.represented (h : u.Owned) (hsized : Sized limit segmentSize u) :
    Represented limit segmentSize u := by
  have hsound := h.sound
  constructor
  · intro id space hget
    exact (hsound.space hget).separated
  · intro id space hget
    have hspace := hsound.space hget
    rw [hsized.2] at hspace
    exact ⟨hspace.below, hspace.tail_le⟩
  · have hexact := h.exact_
    rw [← zero_add u.owners] at hexact
    exact hexact.pairwise
  · intro e he
    exact ⟨h.pos e (mem_extents_iff.mp he), h.placed he⟩
  · intro id space hget b
    rw [h.inUse_of_get hget]
    unfold SegmentSpace.Allocated
    have hbelow : Covered space.free b -> b < space.tail := by
      intro hcov
      rcases hcov with ⟨s, hs, hb⟩
      exact hb.2.trans_le ((hsound.space hget).below s hs)
    constructor
    · constructor
      · intro hb
        by_cases hcov : Covered space.free b
        · exact Or.inl hcov
        · exact Or.inr ⟨hb, hcov⟩
      · intro hb
        rcases hb with hcov | hb
        · exact hbelow hcov
        · exact hb.1
    · intro hboth
      exact hboth.2.2 hboth.1
  · intro id space hget
    rcases hsound.live hget with ⟨b, hb⟩
    exact ⟨b, (h.inUse_of_get hget).mpr hb⟩
  · intro id
    rw [hsound.registered id]
    constructor
    · intro hmem
      by_cases hempty : id ∈ u.cache.registry.pool.emptySegmentIds
      · exact Or.inr ⟨hempty, fun hreg => hreg.2 hempty⟩
      · exact Or.inl ⟨⟨hmem, hempty⟩, hempty⟩
    · intro hxor
      rcases hxor with ⟨hreg, _⟩ | ⟨hempty, _⟩
      · exact hreg.1
      · exact hsound.empty hempty
  · intro id hclosed
    exact hsound.closed hclosed
  · rw [← hsized.2]
    exact hsound.totalUsed
  · rw [← hsized.1]
    exact hsound.limit

/-- The allocator's representation invariant, and that a closed segment takes
nothing in until something is published into it or it is reused. -/
theorem allocator_representation (h : Reachable limit segmentSize u) :
    Represented limit segmentSize u ∧
      forall id, id ∈ u.cache.registry.closed -> forall v, Shut id u v ->
        id ∈ v.cache.registry.closed ∧
          forall e, e ∈ v.extents -> e.segmentId = id -> e ∈ u.extents := by
  refine ⟨h.owned.represented h.sized, ?_⟩
  intro id hclosed v hshut
  exact (hshut.closed h.owned hclosed).2

/-!
# An example use

Two files share the first segment and a third one lies in the second.  The first
file is freed, and a compaction moves the file beside it.
-/

def demoFile (size : Nat) : FileInput :=
  { data := some (List.replicate size 7)
    path := none
    stat := { size := size, mtimeMs := 0 } }

def placed (size : Nat) : Operation := Operation.allocate (demoFile size) companionAlloc

def demoSlot : Slot := ⟨"demo", EntryKey.ofSource ['a']⟩

def demo : Usage :=
  (((((new 16 8).apply (placed 6)).apply (placed 2)).apply (placed 4)).apply
    (Operation.put demoSlot (sharedEntry (demoFile 2) ⟨1, 6, 2⟩))).apply
      (Operation.free (sharedEntry (demoFile 6) ⟨1, 0, 6⟩))

theorem demo_reachable : Reachable 16 8 demo := by
  apply Reachable.step
  · apply Reachable.step
    · exact ((Reachable.new.step (placed 6) trivial).step (placed 2) trivial).step (placed 4) trivial
    · show _ ∈ Usage.handed _
      decide
  · show _ ∈ Usage.live _
    decide

theorem allocator_representation_demo :
    (demo.compact (1 / 2)).cache.registry.closed = {1} ∧
      Represented 16 8 (demo.compact (1 / 2)) :=
  ⟨by decide +kernel,
    (allocator_representation
      (demo_reachable.step (Operation.compact (1 / 2)) trivial)).1⟩

/-!
# When an allocation is refused
-/

/-- {lit}`size` bytes of one segment, from {lit}`offset` on, belong to nobody. -/
def Hole (u : Usage) (size : Nat) (id : SegmentId) (offset : Nat) : Prop :=
  offset + size ≤ u.cache.registry.pool.segmentSize ∧
    forall b, offset ≤ b -> b < offset + size -> ¬ u.InUse id b

/-- If {lit}`allocate` returns null, the size exceeds a segment, or no open segment
has a hole for it and no segment can be taken. -/
def RefusesRightly (u : Usage) (size : Nat) : Prop :=
  u.cache.registry.allocate size false = none ->
    u.cache.registry.pool.segmentSize < size ∨
      (forall id, id ∈ u.cache.registry.pool.segments -> id ∉ u.cache.registry.closed ->
        forall offset, ¬ u.Hole size id offset) ∧
      u.cache.registry.pool.emptySegmentIds = [] ∧
      u.cache.registry.pool.limit <
        u.cache.registry.pool.totalUsed + u.cache.registry.pool.segmentSize

end Usage

namespace SegmentRegistry

/-- No free extent and no unused end of an open segment is large enough. -/
def Narrow (r : SegmentRegistry) (size : Nat) : Prop :=
  forall id space, r.spaces.get id = some space -> id ∉ r.closed ->
    (forall extent, extent ∈ space.free -> extent.length < size) ∧
      r.pool.segmentSize < space.tail + size

/-- No segment can be taken. -/
def Exhausted (r : SegmentRegistry) : Prop :=
  r.pool.emptySegmentIds = [] ∧ r.pool.limit < r.pool.totalUsed + r.pool.segmentSize

/-- In an open segment a free extent ends at the tail, and together with the unused
bytes behind the tail it is large enough. -/
def Straddled (r : SegmentRegistry) (size : Nat) : Prop :=
  exists id space extent, r.spaces.get id = some space ∧ id ∉ r.closed ∧
    extent ∈ space.free ∧ extent.stop = space.tail ∧
    extent.offset + size ≤ r.pool.segmentSize

variable {r : SegmentRegistry} {size : Nat}

theorem betterFit_eq_none {segmentId : SegmentId} {index : Nat} {extent : Span}
    {best : Option Fit} :
    betterFit size segmentId index extent best = none <-> best = none ∧ extent.length < size := by
  unfold betterFit
  by_cases hsize : extent.length < size
  · rw [if_pos hsize]
    exact ⟨fun h => ⟨h, hsize⟩, fun h => h.1⟩
  · rw [if_neg hsize]
    cases best with
    | none => simp [hsize]
    | some fit =>
        dsimp only
        split_ifs <;> simp

theorem bestFitIn_eq_none {segmentId : SegmentId} {extents : List Span} {index : Nat}
    {best : Option Fit} :
    bestFitIn size segmentId index extents best = none <->
      best = none ∧ forall extent, extent ∈ extents -> extent.length < size := by
  induction extents generalizing index best with
  | nil => exact ⟨fun h => ⟨h, fun e he => by cases he⟩, fun h => h.1⟩
  | cons extent rest ih =>
      show bestFitIn size segmentId (index + 1) rest _ = none <-> _
      rw [ih, betterFit_eq_none, and_assoc, List.forall_mem_cons]

theorem bestFit_eq_none {closed : Finset SegmentId} {spaces : List (SegmentId × SegmentSpace)}
    {best : Option Fit} :
    bestFit size closed spaces best = none <->
      best = none ∧ forall entry, entry ∈ spaces -> entry.1 ∉ closed ->
        forall extent, extent ∈ entry.2.free -> extent.length < size := by
  induction spaces generalizing best with
  | nil => exact ⟨fun h => ⟨h, fun e he => by cases he⟩, fun h => h.1⟩
  | cons entry rest ih =>
      rcases entry with ⟨segmentId, space⟩
      unfold bestFit
      rw [List.forall_mem_cons]
      by_cases hclosed : segmentId ∈ closed
      · rw [if_pos hclosed, ih]
        exact ⟨fun h => ⟨h.1, fun hopen => absurd hclosed hopen, h.2⟩, fun h => ⟨h.1, h.2.2⟩⟩
      · rw [if_neg hclosed, ih, bestFitIn_eq_none, and_assoc]
        exact ⟨fun h => ⟨h.1, fun _ => h.2.1, h.2.2⟩, fun h => ⟨h.1, h.2.1 hclosed, h.2.2⟩⟩

theorem tailFit_eq_none :
    r.tailFit size = none <-> forall entry, entry ∈ r.spaces.entries -> entry.1 ∉ r.closed ->
      r.pool.segmentSize < entry.2.tail + size := by
  unfold tailFit
  rw [List.find?_eq_none]
  constructor
  · intro h entry hentry hopen
    have hnot := h entry hentry
    rw [decide_eq_true_iff, not_and] at hnot
    exact not_le.mp (hnot hopen)
  · intro h entry hentry
    rw [decide_eq_true_iff, not_and]
    exact fun hopen => not_le.mpr (h entry hentry hopen)

theorem createSegment_eq_none : r.pool.createSegment = none <-> r.Exhausted := by
  unfold Pool.createSegment Exhausted
  cases r.pool.emptySegmentIds with
  | nil =>
      dsimp only
      split_ifs with hlimit
      · exact ⟨fun _ => ⟨rfl, hlimit⟩, fun _ => rfl⟩
      · exact ⟨fun h => (by cases h), fun h => absurd h.2 hlimit⟩
  | cons id rest => exact ⟨fun h => (by cases h), fun h => (by cases h.1)⟩

theorem narrow_iff : r.Narrow size <->
    bestFit size r.closed r.spaces.entries none = none ∧ r.tailFit size = none := by
  rw [bestFit_eq_none, tailFit_eq_none]
  constructor
  · intro h
    refine ⟨⟨rfl, ?_⟩, ?_⟩
    · intro entry hentry hopen
      exact (h entry.1 entry.2 (OrderedMap.mem_entries_iff.mp hentry) hopen).1
    · intro entry hentry hopen
      exact (h entry.1 entry.2 (OrderedMap.mem_entries_iff.mp hentry) hopen).2
  · intro h id space hget hopen
    have hmem := OrderedMap.mem_entries_iff.mpr hget
    exact ⟨h.1.2 (id, space) hmem hopen, h.2 (id, space) hmem hopen⟩

/-- The three places an allocation looks at, in terms of the state. -/
theorem allocate_eq_none (hpos : 0 < size) (hsize : size ≤ r.pool.segmentSize) :
    r.allocate size false = none <-> r.Narrow size ∧ r.Exhausted := by
  unfold allocate
  rw [if_neg hpos.ne', if_neg (not_lt.mpr hsize), narrow_iff, ← createSegment_eq_none]
  cases hbest : bestFit size r.closed r.spaces.entries none with
  | some fit => simp
  | none =>
      cases htail : r.tailFit size with
      | some entry => simp
      | none =>
          cases hcreate : r.pool.createSegment with
          | none => simp
          | some created => simp

end SegmentRegistry

namespace Usage

variable {limit segmentSize : Nat} {u v : Usage} {id : SegmentId}

/-- A hole of an open segment lies in one free extent, behind the tail, or across. -/
theorem hole_cases (h : u.Owned) {size offset : Nat} (hpos : 0 < size)
    {space : SegmentSpace} (hget : u.cache.registry.spaces.get id = some space)
    (hhole : u.Hole size id offset) :
    (exists extent, extent ∈ space.free ∧ size ≤ extent.length) ∨
      space.tail + size ≤ u.cache.registry.pool.segmentSize ∨
      exists extent, extent ∈ space.free ∧ extent.stop = space.tail ∧
        extent.offset + size ≤ u.cache.registry.pool.segmentSize := by
  have hspace := h.sound.space hget
  have hcovered : forall b, offset ≤ b -> b < offset + size -> b < space.tail ->
      Covered space.free b := by
    intro b hlo hhi htail
    by_contra hcov
    exact hhole.2 b hlo hhi ((h.inUse_of_get hget).mpr ⟨htail, hcov⟩)
  have hroom := hhole.1
  by_cases hbehind : space.tail ≤ offset
  · exact Or.inr (Or.inl (by omega))
  · have hlt : offset < min (offset + size) space.tail := by omega
    rcases span_of_covered hspace.separated hlt (fun b hlo hhi =>
      hcovered b hlo (by omega) (by omega)) with ⟨extent, hextent, hlo, hhi⟩
    have hstop := hspace.below extent hextent
    by_cases hinside : offset + size ≤ space.tail
    · refine Or.inl ⟨extent, hextent, ?_⟩
      unfold Span.stop at hhi
      omega
    · refine Or.inr (Or.inr ⟨extent, hextent, ?_, ?_⟩)
      · omega
      · omega

/-- A free extent that ends at the tail is part of a hole. -/
theorem hole_of_straddled (h : u.Owned) {size : Nat} {space : SegmentSpace} {extent : Span}
    (hget : u.cache.registry.spaces.get id = some space) (hextent : extent ∈ space.free)
    (hstop : extent.stop = space.tail)
    (hroom : extent.offset + size ≤ u.cache.registry.pool.segmentSize) :
    u.Hole size id extent.offset := by
  refine ⟨hroom, ?_⟩
  intro b hlo _ huse
  have hb := (h.inUse_of_get hget).mp huse
  have hin : extent.Covers b := ⟨hlo, by rw [hstop]; exact hb.1⟩
  exact hb.2 ⟨extent, hextent, hin⟩

/-- Two files share the only segment, and the one at the end is freed. -/
def tight : Usage :=
  (((new 8 8).apply (placed 4)).apply (placed 3)).apply
    (Operation.free (sharedEntry (demoFile 3) ⟨1, 4, 3⟩))

theorem tight_reachable : Reachable 8 8 tight := by
  apply Reachable.step
  · exact (Reachable.new.step (placed 4) trivial).step (placed 3) trivial
  · show _ ∈ Usage.live _
    decide

theorem tight_extents : tight.extents = [⟨1, 0, 4⟩] := by decide

/-- The allocator refuses rightly except for holes that reach across the tail of an
open segment, when nothing else serves. -/
theorem refuses_rightly_iff (h : Reachable limit segmentSize u) {size : Nat} (hpos : 0 < size) :
    u.RefusesRightly size <->
      (u.cache.registry.Narrow size -> u.cache.registry.Exhausted ->
        ¬ u.cache.registry.Straddled size) := by
  have howned := h.owned
  constructor
  · intro hrefuses hnarrow hexhausted hstraddled
    rcases hstraddled with ⟨id, space, extent, hget, hopen, hextent, hstop, hroom⟩
    have hsize : size ≤ u.cache.registry.pool.segmentSize := by omega
    have hnone := (SegmentRegistry.allocate_eq_none hpos hsize).mpr ⟨hnarrow, hexhausted⟩
    rcases hrefuses hnone with hbig | ⟨hholes, _⟩
    · omega
    · have hmem := ((howned.sound.registered id).mp ⟨space, hget⟩).1
      exact hholes id hmem hopen extent.offset
        (hole_of_straddled howned hget hextent hstop hroom)
  · intro hcondition hnone
    by_cases hsize : u.cache.registry.pool.segmentSize < size
    · exact Or.inl hsize
    · rcases (SegmentRegistry.allocate_eq_none hpos (not_lt.mp hsize)).mp hnone with
        ⟨hnarrow, hexhausted⟩
      refine Or.inr ⟨?_, hexhausted⟩
      intro id hmem hopen offset hhole
      have hregistered : exists space, u.cache.registry.spaces.get id = some space := by
        rw [howned.sound.registered id, hexhausted.1]
        exact ⟨hmem, List.not_mem_nil⟩
      rcases hregistered with ⟨space, hget⟩
      rcases hnarrow id space hget hopen with ⟨hshort, htail⟩
      rcases hole_cases howned hpos hget hhole with
        ⟨extent, hextent, hfits⟩ | hbehind | ⟨extent, hextent, hstop, hroom⟩
      · exact absurd hfits (not_le.mpr (hshort extent hextent))
      · omega
      · exact hcondition hnarrow hexhausted
          ⟨id, space, extent, hget, hopen, hextent, hstop, hroom⟩

theorem refuses_rightly_demo : tight.RefusesRightly 3 := by
  apply (refuses_rightly_iff tight_reachable (by decide)).mpr
  intro hnarrow
  exact absurd ((hnarrow 1 ⟨[⟨4, 3⟩], 7⟩ (by decide) (by decide)).1 ⟨4, 3⟩ (by decide))
    (by decide)

/-- Four bytes are free behind the first file, and the allocator refuses them. -/
theorem refuses_wrongly : Reachable 8 8 tight ∧ ¬ tight.RefusesRightly 4 := by
  refine ⟨tight_reachable, ?_⟩
  intro hrefuses
  have hnone : tight.cache.registry.allocate 4 false = none :=
    Option.isNone_iff_eq_none.mp (by decide)
  rcases hrefuses hnone with hbig | ⟨hholes, _⟩
  · exact absurd hbig (by decide)
  · refine hholes 1 (by decide) (by decide) 4 ⟨by decide, ?_⟩
    intro b hlo _ huse
    rcases huse with ⟨e, he, hc⟩
    rw [tight_extents, List.mem_singleton] at he
    rw [he] at hc
    exact absurd hc.2.2 (not_lt.mpr hlo)

/-!
# Compaction
-/

/-- Whatever {lit}`compact` returns is a sound plan. -/
theorem compaction_sound (h : Reachable limit segmentSize u) {threshold : ℚ}
    {c' : FilesystemCache} {moves : List FilesystemCache.Item}
    (hcompact : u.cache.compact threshold = (c', some moves)) :
    exists target, FilesystemCache.Plan u.cache u.owners threshold c' moves target :=
  FilesystemCache.compact_plan h.owned hcompact

theorem compaction_sound_demo :
    exists c' moves target, demo.cache.compact (1 / 2) = (c', some moves) ∧
      moves.map FilesystemCache.Item.slot = [demoSlot] ∧
      FilesystemCache.Plan demo.cache demo.owners (1 / 2) c' moves target := by
  have hslots : (demo.cache.compact (1 / 2)).2.map (List.map FilesystemCache.Item.slot) =
      some [demoSlot] := by decide +kernel
  rcases hresult : demo.cache.compact (1 / 2) with ⟨c', _ | moves⟩
  · rw [hresult] at hslots
    cases hslots
  · rw [hresult] at hslots
    rcases compaction_sound demo_reachable hresult with ⟨target, hplan⟩
    exact ⟨c', moves, target, rfl, Option.some.inj hslots, hplan⟩

end Usage

end SharedMemoryFs
