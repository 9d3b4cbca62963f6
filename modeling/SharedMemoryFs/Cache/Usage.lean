import SharedMemoryFs.Cache.Compaction

/-!
# A cache in use

Any sequence of operations on a cache that starts empty.  Beside the cache stand
the entries it handed out, those of them not freed yet, and the extents that
readers are filling.  An entry may be published or not; the cache does not know
which of the others are provisional and which are retired.
-/

namespace SharedMemoryFs

open Foundation

structure Usage where
  cache : FilesystemCache
  handed : List Entry
  live : List Entry
  filling : List (FileInput × Extent)

inductive Operation where
  | allocate (file : FileInput) (options : AllocOptions)
  /-- A reader filled its view. -/
  | filled (file : FileInput) (e : Extent) (data : Bytes)
  /-- A reader threw, having left {lit}`data` in its view. -/
  | failed (file : FileInput) (e : Extent) (data : Bytes)
  | put (slot : Slot) (entry : Entry)
  | remove (slot : Slot)
  | free (entry : Entry)
  | compact (threshold : ℚ)

/-- The operation publishes an entry that lies in segment {lit}`id`. -/
def Operation.PutsInto (id : SegmentId) (op : Operation) : Prop :=
  exists slot entry offset length, op = Operation.put slot entry ∧
    entry.kind = EntryKind.shared id offset length

namespace Usage

def new (limit segmentSize : Nat) : Usage :=
  { cache := FilesystemCache.new limit segmentSize, handed := [], live := [], filling := [] }

/-- The extents in use: published, provisional, retired or being filled. -/
def extents (u : Usage) : List Extent :=
  u.live.filterMap Entry.extent? ++ u.filling.map Prod.snd

/-- What the callers promise: only entries the cache handed out are published, and
each is freed once. -/
def Allowed (u : Usage) : Operation -> Prop
  | Operation.filled file e data => (file, e) ∈ u.filling ∧ data.length = e.length
  | Operation.failed file e data => (file, e) ∈ u.filling ∧ data.length = e.length
  | Operation.put _ entry => entry ∈ u.handed
  | Operation.free entry => entry ∈ u.live
  | _ => True

def hand (u : Usage) (entries : List Entry) : Usage :=
  { u with handed := entries ++ u.handed, live := entries ++ u.live }

def allocate (u : Usage) (file : FileInput) (options : AllocOptions) : Usage :=
  match u.cache.allocate file options with
  | (cache, Allocation.settled entry) => { u with cache := cache }.hand entry.toList
  | (cache, Allocation.rejected) => { u with cache := cache }
  | (cache, Allocation.filling e) =>
      { u with cache := cache, filling := (file, e) :: u.filling }

def filled (u : Usage) (file : FileInput) (e : Extent) (data : Bytes) : Usage :=
  { u with
    cache := (u.cache.fillDone file e data).1
    filling := u.filling.erase (file, e) }.hand [(u.cache.fillDone file e data).2]

def failed (u : Usage) (file : FileInput) (e : Extent) (data : Bytes) : Usage :=
  { u with
    cache := u.cache.fillFailed e data
    filling := u.filling.erase (file, e) }

def free (u : Usage) (entry : Entry) : Usage :=
  { u with cache := u.cache.free entry, live := u.live.erase entry }

def compact (u : Usage) (threshold : ℚ) : Usage :=
  match u.cache.compact threshold with
  | (cache, none) => { u with cache := cache }
  | (cache, some moves) =>
      { u with cache := cache }.hand (moves.map FilesystemCache.Item.entry)

def apply (u : Usage) : Operation -> Usage
  | Operation.allocate file options => u.allocate file options
  | Operation.filled file e data => u.filled file e data
  | Operation.failed file e data => u.failed file e data
  | Operation.put slot entry => { u with cache := (u.cache.put slot entry).1 }
  | Operation.remove slot => { u with cache := (u.cache.remove slot).1 }
  | Operation.free entry => u.free entry
  | Operation.compact threshold => u.compact threshold

inductive Reachable (limit segmentSize : Nat) : Usage -> Prop where
  | new : Reachable limit segmentSize (new limit segmentSize)
  | step (op : Operation) :
      Reachable limit segmentSize u -> u.Allowed op -> Reachable limit segmentSize (u.apply op)

/-- The uses reached from {lit}`u` while nothing is published into segment
{lit}`id` and the segment does not return to the pool. -/
inductive Shut (id : SegmentId) (u : Usage) : Usage -> Prop where
  | refl : Shut id u u
  | step (op : Operation) :
      Shut id u v -> v.Allowed op -> ¬ op.PutsInto id ->
      id ∉ (v.apply op).cache.registry.pool.emptySegmentIds -> Shut id u (v.apply op)

/-!
# Extents in use
-/

/-- The extents in use, counted. -/
def owners (u : Usage) : Multiset Extent := (u.extents : Multiset Extent)

theorem owners_eq (u : Usage) :
    u.owners = (u.live.filterMap Entry.extent? : Multiset Extent) +
      (u.filling.map Prod.snd : Multiset Extent) := by
  unfold owners extents
  rw [Multiset.coe_add]

theorem extents_of_option (entry : Option Entry) :
    (entry.toList.filterMap Entry.extent? : Multiset Extent) =
      (Allocation.settled entry).extents := by
  cases entry with
  | none => rfl
  | some entry =>
      show (([entry].filterMap Entry.extent? : List Extent) : Multiset Extent) = entry.extents
      unfold Entry.extents
      cases hext : entry.extent? with
      | none => simp [hext]
      | some e => simp [hext]

theorem owners_hand (u : Usage) (entries : List Entry) :
    (u.hand entries).owners =
      u.owners + (entries.filterMap Entry.extent? : Multiset Extent) := by
  rw [owners_eq, owners_eq]
  unfold hand
  simp only [List.filterMap_append]
  rw [← Multiset.coe_add]
  abel

theorem filterMap_moves {c : FilesystemCache} {mem : Memory}
    {moves : List FilesystemCache.Item}
    (h : forall move, move ∈ moves -> FilesystemCache.MoveSpec c mem move) :
    (moves.map FilesystemCache.Item.entry).filterMap Entry.extent? =
      moves.map FilesystemCache.Item.extent := by
  induction moves with
  | nil => rfl
  | cons move rest ih =>
      have hrest := ih (fun m hm => h m (List.mem_cons_of_mem _ hm))
      rw [List.map_cons, List.map_cons,
        List.filterMap_cons_some (h move List.mem_cons_self).extent, hrest]

theorem filling_erase {filling : List (FileInput × Extent)} {file : FileInput} {e : Extent}
    (h : (file, e) ∈ filling) :
    (filling.map Prod.snd : Multiset Extent) =
      ((filling.erase (file, e)).map Prod.snd : Multiset Extent) + {e} := by
  have hperm := (List.perm_cons_erase h).map Prod.snd
  rw [Multiset.coe_eq_coe.mpr hperm, List.map_cons, ← Multiset.cons_coe,
    ← Multiset.singleton_add, add_comm]

theorem live_erase {live : List Entry} {entry : Entry} (h : entry ∈ live) :
    (live.filterMap Entry.extent? : Multiset Extent) =
      ((live.erase entry).filterMap Entry.extent? : Multiset Extent) + entry.extents := by
  have hperm := (List.perm_cons_erase h).filterMap Entry.extent?
  rw [Multiset.coe_eq_coe.mpr hperm]
  unfold Entry.extents
  cases hext : entry.extent? with
  | none => rw [List.filterMap_cons_none hext]; simp
  | some e =>
      rw [List.filterMap_cons_some hext, ← Multiset.cons_coe, ← Multiset.singleton_add,
        add_comm]
      rfl

/-!
# The registry owns the extents in use
-/

/-- The registry is sound, and its allocated bytes are those in use. -/
def Owned (u : Usage) : Prop := u.cache.registry.Owned u.owners

theorem Owned.allocate {u : Usage} (h : u.Owned) (file : FileInput) (options : AllocOptions) :
    (u.allocate file options).Owned := by
  have hspec := FilesystemCache.allocate_spec h file options
  unfold Usage.allocate
  rcases hresult : u.cache.allocate file options with ⟨cache, entry | _ | e⟩
  · rw [hresult] at hspec
    unfold Owned
    rw [owners_hand, extents_of_option]
    exact hspec.owned
  · rw [hresult] at hspec
    have howned := hspec.owned
    simp only [Allocation.extents, add_zero] at howned
    exact howned
  · rw [hresult] at hspec
    unfold Owned
    rw [owners_eq]
    have howned := hspec.owned
    rw [owners_eq] at howned
    simp only [List.map_cons, ← Multiset.cons_coe, ← Multiset.singleton_add]
    have hsplit : (u.live.filterMap Entry.extent? : Multiset Extent) +
        ({e} + (u.filling.map Prod.snd : Multiset Extent)) =
        (u.live.filterMap Entry.extent? : Multiset Extent) +
          (u.filling.map Prod.snd : Multiset Extent) + {e} := by abel
    rw [hsplit]
    exact howned

/-- The owners besides the extent a reader is filling. -/
theorem owners_filling {u : Usage} {file : FileInput} {e : Extent}
    (h : (file, e) ∈ u.filling) (cache : FilesystemCache) :
    u.owners =
      ({ u with cache := cache, filling := u.filling.erase (file, e) } : Usage).owners + {e} := by
  rw [owners_eq, owners_eq, filling_erase h]
  abel

theorem Owned.failed {u : Usage} (h : u.Owned) {file : FileInput} {e : Extent}
    (hmem : (file, e) ∈ u.filling) (data : Bytes) :
    (u.failed file e data).Owned := by
  unfold Owned at h
  rw [owners_filling hmem (u.cache.fillFailed e data)] at h
  exact (FilesystemCache.owned_fillFailed h data).1

theorem Owned.filled {u : Usage} (h : u.Owned) {file : FileInput} {e : Extent}
    (hmem : (file, e) ∈ u.filling) (data : Bytes) :
    (u.filled file e data).Owned := by
  have hpos : 0 < e.length := by
    apply h.pos e
    unfold owners extents
    exact Multiset.mem_coe.mpr (List.mem_append_right _ (List.mem_map_of_mem hmem))
  have hext : (sharedEntry file e : Entry).extent? = some e := by
    unfold Entry.extent? sharedEntry
    exact if_pos hpos
  unfold Owned at h
  rw [owners_filling hmem (u.cache.fillDone file e data).1] at h
  show SegmentRegistry.Owned _ (hand _ _).owners
  rw [owners_hand]
  show SegmentRegistry.Owned _
    (_ + ((([sharedEntry file e] : List Entry).filterMap Entry.extent? :
      List Extent) : Multiset Extent))
  rw [List.filterMap_cons_some hext]
  exact h

theorem Owned.put {u : Usage} (h : u.Owned) (slot : Slot) (entry : Entry) :
    (u.apply (Operation.put slot entry)).Owned :=
  FilesystemCache.owned_put h slot entry

theorem Owned.free {u : Usage} (h : u.Owned) {entry : Entry} (hmem : entry ∈ u.live) :
    (u.free entry).Owned := by
  unfold Owned at h ⊢
  rw [owners_eq] at h ⊢
  rw [live_erase hmem] at h
  have hsplit : ((u.live.erase entry).filterMap Entry.extent? : Multiset Extent) +
      entry.extents + (u.filling.map Prod.snd : Multiset Extent) =
      ((u.live.erase entry).filterMap Entry.extent? : Multiset Extent) +
        (u.filling.map Prod.snd : Multiset Extent) + entry.extents := by abel
  rw [hsplit] at h
  exact FilesystemCache.owned_free h

theorem Owned.compact {u : Usage} (h : u.Owned) (threshold : ℚ) :
    (u.compact threshold).Owned := by
  have hspec := FilesystemCache.compact_spec h threshold
  unfold Usage.compact
  rcases hresult : u.cache.compact threshold with ⟨cache, _ | moves⟩
  · rw [hresult] at hspec
    exact hspec.fails rfl
  · rw [hresult] at hspec
    rcases hspec.fits moves rfl with ⟨howned, _, hmoves⟩
    unfold Owned
    rw [owners_hand, filterMap_moves hmoves]
    exact howned

theorem Owned.step {u : Usage} (h : u.Owned) {op : Operation} (hallowed : u.Allowed op) :
    (u.apply op).Owned := by
  cases op with
  | allocate file options => exact h.allocate file options
  | filled file e data => exact h.filled hallowed.1 data
  | failed file e data => exact h.failed hallowed.1 data
  | put slot entry => exact h.put slot entry
  | remove slot => exact h
  | free entry => exact h.free hallowed
  | compact threshold => exact h.compact threshold

theorem Reachable.owned {limit segmentSize : Nat} {u : Usage}
    (h : Reachable limit segmentSize u) : u.Owned := by
  induction h with
  | new => exact SegmentRegistry.owned_new limit segmentSize
  | step op _ hallowed ih => exact ih.step hallowed

/-!
# Pool and closed segments
-/

theorem owners_ge_of_filling {u : Usage} {file : FileInput} {e : Extent}
    (h : (file, e) ∈ u.filling) : e ∈ u.extents :=
  List.mem_append_right _ (List.mem_map_of_mem h)

/-- An operation that is no compaction allocates, releases or keeps the registry. -/
inductive Touches (u u' : Usage) : Prop where
  | keeps : u'.cache.registry = u.cache.registry ->
      (forall e, e ∈ u'.extents -> e ∈ u.extents) -> Touches u u'
  | allocates (size : Nat) (e : Extent) :
      u.cache.registry.allocate size false = some (e, u'.cache.registry) ->
      (forall x, x ∈ u'.extents -> x ∈ u.extents ∨ x = e) -> Touches u u'
  | releases (e : Extent) : u'.cache.registry = u.cache.registry.releaseExtent e ->
      (forall x, x ∈ u'.extents -> x ∈ u.extents) -> Touches u u'

theorem mem_extents_iff {u : Usage} {e : Extent} : e ∈ u.extents <-> e ∈ u.owners :=
  Multiset.mem_coe.symm

theorem touches_allocate (u : Usage) (file : FileInput) (options : AllocOptions) :
    Touches u (u.allocate file options) := by
  unfold Usage.allocate
  rcases hresult : u.cache.allocate file options with ⟨cache, a⟩
  have hplaced := FilesystemCache.allocate_placed hresult
  have hsettled : forall u' : Usage, u'.cache = cache -> u'.owners = u.owners + a.extents ->
      Touches u u' := by
    intro u' hcache howners
    rcases hplaced with ⟨hregistry, hextents⟩ | ⟨size, e, halloc, hextents⟩
    · apply Touches.keeps
      · rw [hcache]
        exact hregistry
      · intro e he
        rw [mem_extents_iff, howners, hextents, add_zero] at he
        exact mem_extents_iff.mpr he
    · apply Touches.allocates size e
      · rw [hcache]
        exact halloc
      · intro x hx
        rw [mem_extents_iff, howners] at hx
        rcases Multiset.mem_add.mp hx with hx | hx
        · exact Or.inl (mem_extents_iff.mpr hx)
        · exact Or.inr (Multiset.mem_singleton.mp (Multiset.mem_of_le hextents hx))
  cases a with
  | settled entry =>
      apply hsettled
      · rfl
      · rw [owners_hand, extents_of_option]
        rfl
  | rejected =>
      apply hsettled
      · rfl
      · exact (add_zero _).symm
  | filling e =>
      apply hsettled
      · rfl
      · show Usage.owners _ = u.owners + {e}
        rw [owners_eq, owners_eq]
        simp only [List.map_cons, ← Multiset.cons_coe, ← Multiset.singleton_add]
        abel

theorem touches_filled {u : Usage} {file : FileInput} {e : Extent} (data : Bytes)
    (hmem : (file, e) ∈ u.filling) : Touches u (u.filled file e data) := by
  apply Touches.keeps
  · rfl
  · intro x hx
    rcases List.mem_append.mp hx with hx | hx
    · have hx : x ∈ (sharedEntry file e :: u.live).filterMap Entry.extent? := hx
      rcases List.mem_filterMap.mp hx with ⟨entry, hentry, hext⟩
      rcases List.mem_cons.mp hentry with heq | hentry
      · rw [heq] at hext
        unfold Entry.extent? sharedEntry at hext
        dsimp only at hext
        split_ifs at hext
        rw [← Option.some.inj hext]
        exact owners_ge_of_filling hmem
      · exact List.mem_append_left _ (List.mem_filterMap.mpr ⟨entry, hentry, hext⟩)
    · rcases List.mem_map.mp hx with ⟨fill, hfill, rfl⟩
      exact owners_ge_of_filling (List.mem_of_mem_erase hfill)

theorem touches_failed (u : Usage) (file : FileInput) (e : Extent) (data : Bytes) :
    Touches u (u.failed file e data) := by
  apply Touches.releases e
  · rfl
  · intro x hx
    rcases List.mem_append.mp hx with hx | hx
    · exact List.mem_append_left _ hx
    · rcases List.mem_map.mp hx with ⟨fill, hfill, rfl⟩
      exact owners_ge_of_filling (List.mem_of_mem_erase hfill)

theorem touches_free (u : Usage) (entry : Entry) : Touches u (u.free entry) := by
  have hsub : forall x, x ∈ (u.free entry).extents -> x ∈ u.extents := by
    intro x hx
    rcases List.mem_append.mp hx with hx | hx
    · rcases List.mem_filterMap.mp hx with ⟨other, hother, hext⟩
      exact List.mem_append_left _
        (List.mem_filterMap.mpr ⟨other, List.mem_of_mem_erase hother, hext⟩)
    · exact List.mem_append_right _ hx
  cases hext : entry.extent? with
  | none =>
      apply Touches.keeps _ hsub
      show (u.cache.free entry).registry = _
      unfold FilesystemCache.free
      rw [hext]
  | some e =>
      apply Touches.releases e _ hsub
      show (u.cache.free entry).registry = _
      unfold FilesystemCache.free
      rw [hext]

end Usage

end SharedMemoryFs
