import SharedMemoryFs.Cache.Registry

/-!
# The filesystem cache

Placing bytes and publishing them are separate steps.  {lit}`allocate` returns
an entry nobody else can see; {lit}`put` and {lit}`remove` change the index,
which holds published entries only.  The indexes of all places are one map
keyed by {lit}`Slot`.
-/

namespace SharedMemoryFs

open Foundation

/-- The contents of the shared buffers, by segment and byte. -/
abbrev Memory := SegmentId -> Nat -> Byte

def readBytes (mem : Memory) (e : Extent) : Bytes :=
  (List.range e.length).map (fun i => mem e.segmentId (e.offset + i))

def writeBytes (mem : Memory) (e : Extent) (data : Bytes) : Memory :=
  fun segmentId b =>
    if e.segmentId = segmentId ∧ e.offset ≤ b ∧ b < e.offset + e.length then
      data.getD (b - e.offset) 0
    else mem segmentId b

theorem readBytes_writeBytes (mem : Memory) {e : Extent} {data : Bytes}
    (h : data.length = e.length) : readBytes (writeBytes mem e data) e = data := by
  apply List.ext_getElem
  · simp [readBytes, h]
  · intro i hi hi'
    have hlt : i < e.length := by simpa [readBytes] using hi
    simp [readBytes, writeBytes, hlt, hi']

/-- Writing one extent leaves every extent without a common byte alone. -/
theorem readBytes_writeBytes_of_disjoint (mem : Memory) {e x : Extent}
    {data : Bytes} (h : forall c, x.Covers c -> ¬ e.Covers c) :
    readBytes (writeBytes mem e data) x = readBytes mem x := by
  unfold readBytes
  apply List.map_congr_left
  intro i hi
  have hlt : i < x.length := List.mem_range.mp hi
  have hout := h (x.segmentId, x.offset + i) ⟨rfl, Nat.le_add_right _ _, by omega⟩
  unfold writeBytes
  exact if_neg hout

structure FilesystemCache where
  registry : SegmentRegistry
  index : OrderedMap Slot Entry
  mem : Memory

/-- The options of {lit}`allocate`; no {lit}`maxFileSize` is Infinity. -/
structure AllocOptions where
  maxFileSize : Option Nat
  fallback : Bool
  onDisk : Bool
deriving DecidableEq, Repr

def companionAlloc : AllocOptions :=
  { maxFileSize := none, fallback := false, onDisk := false }

/-- Where the synchronous part of {lit}`allocate` leaves its promise. -/
inductive Allocation where
  | settled (entry : Option Entry)
  | rejected
  | filling (extent : Extent)
deriving DecidableEq, Repr

def diskEntry (file : FileInput) : Entry :=
  { kind := EntryKind.disk file.path
    stat := file.stat
    metadata := file.metadata
    scriptOptions := file.scriptOptions }

def sharedEntry (file : FileInput) (e : Extent) : Entry :=
  { kind := EntryKind.shared e.segmentId e.offset e.length
    stat := file.stat
    metadata := file.metadata
    scriptOptions := file.scriptOptions }

def emptyEntry (file : FileInput) : Entry := sharedEntry file ⟨0, 0, 0⟩

def Allocation.extents : Allocation -> Multiset Extent
  | Allocation.settled entry => entry.elim 0 Entry.extents
  | Allocation.rejected => 0
  | Allocation.filling e => {e}

namespace FilesystemCache

def new (limit segmentSize : Nat) : FilesystemCache :=
  { registry := SegmentRegistry.new limit segmentSize
    index := OrderedMap.empty
    mem := fun _ _ => 0 }

def fallbackTo (file : FileInput) (options : AllocOptions) : Allocation :=
  Allocation.settled (if options.fallback then some (diskEntry file) else none)

/-- {lit}`allocate` with {lit}`#place` inlined, up to its first suspension: an
input with data is placed at once, an input with a path leaves the reader
filling its extent. -/
def allocate (c : FilesystemCache) (file : FileInput) (options : AllocOptions) :
    FilesystemCache × Allocation :=
  if options.onDisk then (c, fallbackTo file options)
  else if file.data.any (fun data => data.length != file.stat.size) then
    (c, Allocation.rejected)
  else
    let size := (file.data.map List.length).getD file.stat.size
    if options.maxFileSize.any (fun limit => decide (limit < size)) then
      (c, fallbackTo file options)
    else if size = 0 then (c, Allocation.settled (some (emptyEntry file)))
    else
      match c.registry.allocate size false with
      | none => (c, fallbackTo file options)
      | some (e, registry) =>
          match file.data with
          | some data =>
              ({ c with registry := registry, mem := writeBytes c.mem e data },
                Allocation.settled (some (sharedEntry file e)))
          | none => ({ c with registry := registry }, Allocation.filling e)

/-- The reader filled the whole view. -/
def fillDone (c : FilesystemCache) (file : FileInput) (e : Extent) (data : Bytes) :
    FilesystemCache × Entry :=
  ({ c with mem := writeBytes c.mem e data }, sharedEntry file e)

/-- The reader threw, having left {lit}`data` in its view. -/
def fillFailed (c : FilesystemCache) (e : Extent) (data : Bytes) : FilesystemCache :=
  { c with registry := c.registry.releaseExtent e, mem := writeBytes c.mem e data }

def put (c : FilesystemCache) (slot : Slot) (entry : Entry) :
    FilesystemCache × Option Entry :=
  let registry :=
    match entry.kind with
    | EntryKind.shared segmentId _ _ =>
        { c.registry with closed := c.registry.closed.erase segmentId }
    | EntryKind.disk _ => c.registry
  ({ c with registry := registry, index := c.index.set slot entry },
    c.index.get slot)

def remove (c : FilesystemCache) (slot : Slot) : FilesystemCache × Option Entry :=
  ({ c with index := c.index.delete slot }, c.index.get slot)

def free (c : FilesystemCache) (entry : Entry) : FilesystemCache :=
  match entry.extent? with
  | none => c
  | some e => { c with registry := c.registry.releaseExtent e }

/-!
# Compaction
-/

structure Candidate where
  count : Nat
  minUtil : ℚ
  target : Option SegmentId

def considerSegment (r : SegmentRegistry) (best : Candidate)
    (entry : SegmentId × SegmentSpace) : Candidate :=
  if entry.2.tail = 0 ∨ entry.1 ∈ r.closed then best
  else
    let util : ℚ := entry.2.used / r.pool.segmentSize
    if util < best.minUtil then ⟨best.count + 1, util, some entry.1⟩
    else { best with count := best.count + 1 }

/-- The least utilised open segment below {lit}`threshold`, if two are open. -/
def compactTarget (r : SegmentRegistry) (threshold : ℚ) : Option SegmentId :=
  let found := r.spaces.entries.foldl (considerSegment r) ⟨0, threshold, none⟩
  if found.count < 2 then none else found.target

structure Item where
  slot : Slot
  entry : Entry
  extent : Extent

def itemOf (target : SegmentId) (published : Slot × Entry) : Option Item :=
  match published.2.kind with
  | EntryKind.shared segmentId offset length =>
      if segmentId = target then
        some ⟨published.1, published.2, ⟨segmentId, offset, length⟩⟩
      else none
  | EntryKind.disk _ => none

def rollback (r : SegmentRegistry) (moves : List Item) : SegmentRegistry :=
  moves.foldl (fun r move => r.release move.extent) r

/-- The loop of {lit}`compact`: each item is copied into free space of another
segment, or every move so far is rolled back. -/
def relocate (c : FilesystemCache) : List Item -> List Item ->
    FilesystemCache × Option (List Item)
  | [], moves => (c, some moves)
  | item :: rest, moves =>
      match c.registry.allocate item.extent.length true with
      | none => ({ c with registry := rollback c.registry moves }, none)
      | some (e, registry) =>
          relocate
            { c with
              registry := registry
              mem := writeBytes c.mem e (readBytes c.mem item.extent) }
            rest
            (moves ++ [⟨item.slot,
              { item.entry with kind := EntryKind.shared e.segmentId e.offset e.length },
              e⟩])

def compact (c : FilesystemCache) (threshold : ℚ) :
    FilesystemCache × Option (List Item) :=
  if threshold = 0 then (c, none)
  else
    match compactTarget c.registry threshold with
    | none => (c, none)
    | some target =>
        let items := c.index.entries.filterMap (itemOf target)
        if items.isEmpty then (c, none)
        else
          let registry := { c.registry with closed := insert target c.registry.closed }
          match relocate { c with registry := registry } items [] with
          | (c', some moves) => (c', some moves)
          | (c', none) =>
              ({ c' with
                registry :=
                  { c'.registry with closed := c'.registry.closed.erase target } }, none)

/-!
# Placing bytes
-/

/-- The bytes of every live extent are as they were. -/
def Agree (live : Multiset Extent) (mem mem' : Memory) : Prop :=
  forall e, e ∈ live -> readBytes mem' e = readBytes mem e

theorem agree_refl (live : Multiset Extent) (mem : Memory) : Agree live mem mem :=
  fun _ _ => rfl

theorem Agree.trans {live : Multiset Extent} {mem mem' mem'' : Memory}
    (h : Agree live mem mem') (h' : Agree live mem' mem'') : Agree live mem mem'' :=
  fun e he => (h' e he).trans (h e he)

theorem Agree.mono {live live' : Multiset Extent} {mem mem' : Memory}
    (h : Agree live' mem mem') (hle : forall e, e ∈ live -> e ∈ live') :
    Agree live mem mem' :=
  fun e he => h e (hle e he)

/-- What the synchronous part of an allocation leaves behind. -/
structure AllocateSpec (c : FilesystemCache) (live : Multiset Extent)
    (result : FilesystemCache × Allocation) : Prop where
  owned : result.1.registry.Owned (live + result.2.extents)
  index : result.1.index = c.index
  agree : Agree live c.mem result.1.mem

theorem allocateSpec_unchanged {c : FilesystemCache} {live : Multiset Extent}
    (h : c.registry.Owned live) {a : Allocation} (ha : a.extents = 0) :
    AllocateSpec c live (c, a) where
  owned := by
    rw [ha, add_zero]
    exact h
  index := rfl
  agree := agree_refl live c.mem

theorem extents_fallbackTo (file : FileInput) (options : AllocOptions) :
    (fallbackTo file options).extents = 0 := by
  unfold fallbackTo
  cases options.fallback <;> rfl

theorem extents_sharedEntry (file : FileInput) {e : Extent} (h : 0 < e.length) :
    (sharedEntry file e).extents = {e} := by
  unfold Entry.extents Entry.extent? sharedEntry
  simp [h]

theorem extents_emptyEntry (file : FileInput) : (emptyEntry file).extents = 0 := rfl

theorem agree_write_fresh {r r' : SegmentRegistry} {live : Multiset Extent}
    (h : r.Owned live) {size : Nat} {noGrow : Bool} {e : Extent}
    (halloc : r.allocate size noGrow = some (e, r')) (mem : Memory) (data : Bytes) :
    Agree live mem (writeBytes mem e data) := by
  intro x hx
  exact readBytes_writeBytes_of_disjoint mem
    (fun _ hc => h.allocate_disjoint hx halloc hc)

theorem allocate_spec {c : FilesystemCache} {live : Multiset Extent}
    (h : c.registry.Owned live) (file : FileInput) (options : AllocOptions) :
    AllocateSpec c live (c.allocate file options) := by
  unfold allocate
  by_cases hdisk : options.onDisk = true
  · rw [if_pos hdisk]
    exact allocateSpec_unchanged h (extents_fallbackTo file options)
  rw [if_neg hdisk]
  by_cases hmismatch : file.data.any (fun data => data.length != file.stat.size) = true
  · rw [if_pos hmismatch]
    exact allocateSpec_unchanged h rfl
  rw [if_neg hmismatch]
  simp only
  split_ifs with hlarge hzero
  · exact allocateSpec_unchanged h (extents_fallbackTo file options)
  · exact allocateSpec_unchanged h (extents_emptyEntry file)
  cases halloc : c.registry.allocate
      ((file.data.map List.length).getD file.stat.size) false with
  | none => exact allocateSpec_unchanged h (extents_fallbackTo file options)
  | some placed =>
      rcases placed with ⟨e, registry⟩
      have howned := h.allocate halloc
      have hpos : 0 < e.length := howned.pos e (by simp)
      cases hdata : file.data with
      | some data =>
          exact
            { owned := by
                show registry.Owned (live + (sharedEntry file e).extents)
                rw [extents_sharedEntry file hpos]
                exact howned
              index := rfl
              agree := agree_write_fresh h halloc c.mem data }
      | none =>
          exact
            { owned := howned
              index := rfl
              agree := agree_refl live c.mem }

/-- An allocation leaves the registry alone, or takes one extent from it. -/
theorem allocate_placed {c c' : FilesystemCache} {file : FileInput} {options : AllocOptions}
    {a : Allocation} (halloc : c.allocate file options = (c', a)) :
    c'.registry = c.registry ∧ a.extents = 0 ∨
      exists size e, c.registry.allocate size false = some (e, c'.registry) ∧
        a.extents ≤ {e} := by
  have hkept : forall {b : Allocation}, b.extents = 0 -> (c, b) = (c', a) ->
      c'.registry = c.registry ∧ a.extents = 0 := by
    intro b hb heq
    cases heq
    exact ⟨rfl, hb⟩
  unfold allocate at halloc
  by_cases hdisk : options.onDisk = true
  · rw [if_pos hdisk] at halloc
    exact Or.inl (hkept (extents_fallbackTo file options) halloc)
  rw [if_neg hdisk] at halloc
  by_cases hmismatch : file.data.any (fun data => data.length != file.stat.size) = true
  · rw [if_pos hmismatch] at halloc
    exact Or.inl (hkept rfl halloc)
  rw [if_neg hmismatch] at halloc
  simp only at halloc
  split_ifs at halloc with hlarge hzero
  · exact Or.inl (hkept (extents_fallbackTo file options) halloc)
  · have hempty : (Allocation.settled (some (emptyEntry file))).extents = 0 :=
      extents_emptyEntry file
    exact Or.inl (hkept hempty halloc)
  cases hplaced : c.registry.allocate
      ((file.data.map List.length).getD file.stat.size) false with
  | none =>
      rw [hplaced] at halloc
      exact Or.inl (hkept (extents_fallbackTo file options) halloc)
  | some placed =>
      rcases placed with ⟨e, registry⟩
      rw [hplaced] at halloc
      have hresult : c'.registry = registry ∧ a.extents ≤ {e} := by
        cases hdata : file.data with
        | some data =>
            simp only [hdata] at halloc
            rw [← (Prod.mk.inj halloc).1, ← (Prod.mk.inj halloc).2]
            refine ⟨rfl, ?_⟩
            show (sharedEntry file e).extents ≤ {e}
            unfold Entry.extents Entry.extent? sharedEntry
            dsimp only
            split_ifs
            · exact le_rfl
            · exact Multiset.zero_le _
        | none =>
            simp only [hdata] at halloc
            rw [← (Prod.mk.inj halloc).1, ← (Prod.mk.inj halloc).2]
            exact ⟨rfl, le_rfl⟩
      refine Or.inr ⟨(file.data.map List.length).getD file.stat.size, e, ?_, hresult.2⟩
      rw [hresult.1]
      exact hplaced

/-- Data that was placed in a segment reads back as it was given. -/
theorem allocate_settled {c c' : FilesystemCache} {live : Multiset Extent}
    (h : c.registry.Owned live) {file : FileInput} {options : AllocOptions}
    {entry : Entry} {e : Extent}
    (halloc : c.allocate file options = (c', Allocation.settled (some entry)))
    (he : entry.extent? = some e) :
    entry = sharedEntry file e ∧ file.data = some (readBytes c'.mem e) := by
  have hnotDisk : forall {a}, fallbackTo file options = a ->
      a = Allocation.settled (some entry) -> False := by
    intro a ha hsettled
    rw [← ha] at hsettled
    unfold fallbackTo at hsettled
    cases hfallback : options.fallback with
    | false => simp [hfallback] at hsettled
    | true =>
        simp only [hfallback, if_true, Allocation.settled.injEq, Option.some.injEq]
          at hsettled
        rw [← hsettled] at he
        simp [Entry.extent?, diskEntry] at he
  unfold allocate at halloc
  by_cases hdisk : options.onDisk = true
  · rw [if_pos hdisk] at halloc
    exact (hnotDisk rfl (Prod.mk.inj halloc).2).elim
  rw [if_neg hdisk] at halloc
  by_cases hmismatch : file.data.any (fun data => data.length != file.stat.size) = true
  · rw [if_pos hmismatch] at halloc
    cases (Prod.mk.inj halloc).2
  rw [if_neg hmismatch] at halloc
  simp only at halloc
  split_ifs at halloc with hlarge hzero
  · exact (hnotDisk rfl (Prod.mk.inj halloc).2).elim
  · have hentry : emptyEntry file = entry :=
      Option.some.inj (Allocation.settled.inj (Prod.mk.inj halloc).2)
    rw [← hentry] at he
    simp [Entry.extent?, emptyEntry, sharedEntry] at he
  cases hplaced : c.registry.allocate
      ((file.data.map List.length).getD file.stat.size) false with
  | none =>
      rw [hplaced] at halloc
      exact (hnotDisk rfl (Prod.mk.inj halloc).2).elim
  | some placed =>
      rcases placed with ⟨e', registry⟩
      rw [hplaced] at halloc
      cases hdata : file.data with
      | none =>
          simp only [hdata] at halloc
          cases (Prod.mk.inj halloc).2
      | some data =>
          simp only [hdata, Prod.mk.injEq, Allocation.settled.injEq,
            Option.some.injEq] at halloc
          rcases halloc with ⟨hc, hentry⟩
          have hlength := (SegmentRegistry.allocate_spec h.sound hplaced).length
          have hpos : 0 < e'.length := (h.allocate hplaced).pos e' (by simp)
          have hext : (sharedEntry file e').extent? = some e' := by
            simp [Entry.extent?, sharedEntry, hpos]
          rw [← hentry, hext] at he
          have he' : e' = e := Option.some.inj he
          refine ⟨by rw [← hentry, he'], ?_⟩
          rw [← hc, ← he', readBytes_writeBytes _ ?_]
          rw [hlength, hdata]
          rfl

theorem owned_free {c : FilesystemCache} {live : Multiset Extent} {entry : Entry}
    (h : c.registry.Owned (live + entry.extents)) :
    (c.free entry).registry.Owned live := by
  unfold free
  unfold Entry.extents at h
  cases hext : entry.extent? with
  | none =>
      rw [hext] at h
      simpa using h
  | some e =>
      rw [hext] at h
      exact h.releaseExtent

@[simp] theorem free_index (c : FilesystemCache) (entry : Entry) :
    (c.free entry).index = c.index := by
  unfold free
  cases entry.extent? <;> rfl

@[simp] theorem free_mem (c : FilesystemCache) (entry : Entry) :
    (c.free entry).mem = c.mem := by
  unfold free
  cases entry.extent? <;> rfl

theorem owned_closed {r : SegmentRegistry} {live : Multiset Extent}
    (h : r.Owned live) {closed : Finset SegmentId}
    (hclosed : forall {id}, id ∈ closed -> exists space, r.spaces.get id = some space) :
    ({ r with closed := closed } : SegmentRegistry).Owned live where
  sound := { h.sound with closed := hclosed }
  pos := h.pos
  exact_ := h.exact_

theorem owned_put {c : FilesystemCache} {live : Multiset Extent}
    (h : c.registry.Owned live) (slot : Slot) (entry : Entry) :
    (c.put slot entry).1.registry.Owned live := by
  unfold put
  cases entry.kind with
  | disk path => exact h
  | shared segmentId offset length =>
      exact owned_closed h (fun hid => h.sound.closed (Finset.mem_of_mem_erase hid))

theorem owned_fillFailed {c : FilesystemCache} {live : Multiset Extent} {e : Extent}
    (h : c.registry.Owned (live + {e})) (data : Bytes) :
    (c.fillFailed e data).registry.Owned live ∧
      Agree live c.mem (c.fillFailed e data).mem := by
  refine ⟨h.releaseExtent, ?_⟩
  intro x hx
  rcases Multiset.exists_cons_of_mem hx with ⟨rest, hrest⟩
  have hexact := h.exact_
  rw [hrest, ← Multiset.singleton_add, add_comm {x} rest] at hexact
  exact readBytes_writeBytes_of_disjoint c.mem (fun _ hc => hexact.disjoint hc)

theorem agree_fillDone {c : FilesystemCache} {live : Multiset Extent} {e : Extent}
    (h : c.registry.Owned (live + {e})) (file : FileInput) (data : Bytes) :
    Agree live c.mem (c.fillDone file e data).1.mem := (owned_fillFailed h data).2

/-!
# What compaction does
-/

def movedExtents (moves : List Item) : Multiset Extent :=
  (moves.map Item.extent : Multiset Extent)

theorem movedExtents_append (xs : List Item) (x : Item) :
    movedExtents (xs ++ [x]) = movedExtents xs + {x.extent} := by
  unfold movedExtents
  rw [List.map_append, ← Multiset.coe_add]
  rfl

theorem rollback_spec {r : SegmentRegistry} {live : Multiset Extent}
    {moves : List Item} (h : r.Owned (live + movedExtents moves))
    (hanchor : r.Anchored live) : (rollback r moves).Owned live := by
  induction moves generalizing r with
  | nil => simpa [rollback, movedExtents] using h
  | cons move rest ih =>
      have hsplit : live + movedExtents (move :: rest) =
          (live + movedExtents rest) + {move.extent} := by
        unfold movedExtents
        rw [List.map_cons, ← Multiset.cons_coe, ← Multiset.singleton_add]
        abel
      have hwide : r.Anchored (live + movedExtents rest) := by
        intro id space hget
        rcases hanchor id space hget with ⟨e, b, he, hc⟩
        exact ⟨e, b, Multiset.mem_add.mpr (Or.inl he), hc⟩
      rw [hsplit] at h
      have hnext := h.release hwide
      refine ih hnext.1 ?_
      -- The anchor survives in `live` itself: the released extent is no part of it.
      have hlive : r.Owned (live + movedExtents rest + {move.extent}) := h
      intro id space hget
      have hall : forall c, move.extent.Covers c -> r.Allocated c :=
        fun _ hc => hlive.allocated (by simp) hc
      rcases SegmentRegistry.release_space hlive.sound (hlive.pos _ (by simp)) hall
        with ⟨old, new, hspace⟩
      have hget : (r.release move.extent).spaces.get id = some space := hget
      rw [hspace.eq, OrderedMap.get_set] at hget
      by_cases heq : id = move.extent.segmentId
      · rw [heq]
        exact hanchor _ _ hspace.get
      · rw [if_neg heq] at hget
        exact hanchor _ _ hget

theorem rollback_frame (r : SegmentRegistry) (moves : List Item) :
    (rollback r moves).pool = r.pool ∧ (rollback r moves).closed = r.closed := by
  induction moves generalizing r with
  | nil => exact ⟨rfl, rfl⟩
  | cons move rest ih =>
      rcases ih (r.release move.extent) with ⟨hpool, hclosed⟩
      constructor
      · exact hpool.trans (SegmentRegistry.release_pool r move.extent)
      · exact hclosed.trans (SegmentRegistry.release_closed r move.extent)

/-- A move is the same entry at a new place with the same bytes. -/
structure Moved (mem mem' : Memory) (item move : Item) : Prop where
  slot : move.slot = item.slot
  entry : move.entry =
    { item.entry with
      kind := EntryKind.shared move.extent.segmentId move.extent.offset
        move.extent.length }
  length : move.extent.length = item.extent.length
  bytes : readBytes mem' move.extent = readBytes mem item.extent

theorem slots_of_moved {mem mem' : Memory} {items moves : List Item}
    (h : List.Forall₂ (Moved mem mem') items moves) :
    moves.map Item.slot = items.map Item.slot := by
  induction h with
  | nil => rfl
  | cons hhead _ ih => rw [List.map_cons, List.map_cons, hhead.slot, ih]

structure RelocateSpec (c : FilesystemCache) (live : Multiset Extent)
    (items moves : List Item) (c' : FilesystemCache)
    (result : Option (List Item)) : Prop where
  index : c'.index = c.index
  pool : c'.registry.pool = c.registry.pool
  closed : c'.registry.closed = c.registry.closed
  agree : Agree live c.mem c'.mem
  fits : forall moves', result = some moves' ->
    c'.registry.Owned (live + movedExtents moves') ∧
      (forall m, m ∈ moves -> readBytes c'.mem m.extent = readBytes c.mem m.extent) ∧
      exists done, moves' = moves ++ done ∧ List.Forall₂ (Moved c.mem c'.mem) items done ∧
        forall m, m ∈ done -> m.extent.segmentId ∉ c.registry.closed
  fails : result = none -> c'.registry.Owned live

/-- Nothing is allocated in a closed segment, so its bytes stay. -/
theorem readBytes_write_closed {r r' : SegmentRegistry} (h : r.Sound) {size : Nat}
    {noGrow : Bool} {e x : Extent} (halloc : r.allocate size noGrow = some (e, r'))
    (hx : x.segmentId ∈ r.closed) (mem : Memory) (data : Bytes) :
    readBytes (writeBytes mem e data) x = readBytes mem x := by
  apply readBytes_writeBytes_of_disjoint
  intro c hc he
  have hopen := (SegmentRegistry.allocate_spec h halloc).open_
  rw [he.1, ← hc.1] at hopen
  exact hopen hx

theorem Moved.of_same {mem mem₁ mem' : Memory} {items moves : List Item}
    (h : List.Forall₂ (Moved mem₁ mem') items moves)
    (hsame : forall x, x ∈ items -> readBytes mem₁ x.extent = readBytes mem x.extent) :
    List.Forall₂ (Moved mem mem') items moves := by
  induction h with
  | nil => exact List.Forall₂.nil
  | cons hhead _ ih =>
      apply List.Forall₂.cons
      · exact
          { slot := hhead.slot
            entry := hhead.entry
            length := hhead.length
            bytes := hhead.bytes.trans (hsame _ List.mem_cons_self) }
      · exact ih (fun x hx => hsame x (List.mem_cons_of_mem _ hx))

theorem relocate_spec {c : FilesystemCache} {live : Multiset Extent}
    {items moves : List Item}
    (h : c.registry.Owned (live + movedExtents moves))
    (hanchor : c.registry.Anchored live)
    (hitems : forall item, item ∈ items -> item.extent.segmentId ∈ c.registry.closed) :
    RelocateSpec c live items moves (relocate c items moves).1
      (relocate c items moves).2 := by
  induction items generalizing c moves with
  | nil =>
      exact
        { index := rfl
          pool := rfl
          closed := rfl
          agree := agree_refl live c.mem
          fits := by
            intro moves' heq
            rw [← Option.some.inj heq]
            exact ⟨h, fun _ _ => rfl, [], (List.append_nil moves).symm,
              List.Forall₂.nil, fun m hm => by cases hm⟩
          fails := fun heq => by cases heq }
  | cons item rest ih =>
      unfold relocate
      cases halloc : c.registry.allocate item.extent.length true with
      | none =>
          rcases rollback_frame c.registry moves with ⟨hpool, hclosed⟩
          exact
            { index := rfl
              pool := hpool
              closed := hclosed
              agree := agree_refl live c.mem
              fits := fun moves' heq => by cases heq
              fails := fun _ => rollback_spec h hanchor }
      | some placed =>
          rcases placed with ⟨e, registry⟩
          have hspec := SegmentRegistry.allocate_spec h.sound halloc
          have hagree := agree_write_fresh h halloc c.mem (readBytes c.mem item.extent)
          rcases SegmentRegistry.allocate_within halloc with ⟨_, space, _, hregistry⟩
          let move : Item := ⟨item.slot,
            { item.entry with kind := EntryKind.shared e.segmentId e.offset e.length }, e⟩
          let c₁ : FilesystemCache :=
            { c with
              registry := registry
              mem := writeBytes c.mem e (readBytes c.mem item.extent) }
          have hpool : registry.pool = c.registry.pool := by rw [hregistry]
          have howned : c₁.registry.Owned (live + movedExtents (moves ++ [move])) := by
            rw [movedExtents_append, ← add_assoc]
            exact h.allocate halloc
          have hstep := ih howned (hanchor.allocate halloc) (fun x hx => by
            show x.extent.segmentId ∈ registry.closed
            rw [hspec.closed]
            exact hitems x (List.mem_cons_of_mem item hx))
          have hlive : Agree live c.mem c₁.mem :=
            hagree.mono (fun x hx => Multiset.mem_add.mpr (Or.inl hx))
          have hmove : readBytes c₁.mem e = readBytes c.mem item.extent :=
            readBytes_writeBytes c.mem (by simp [readBytes, hspec.length])
          show RelocateSpec c live (item :: rest) moves
            (relocate c₁ rest (moves ++ [move])).1 (relocate c₁ rest (moves ++ [move])).2
          refine
            { index := hstep.index
              pool := hstep.pool.trans hpool
              closed := hstep.closed.trans hspec.closed
              agree := hlive.trans hstep.agree
              fits := ?_
              fails := hstep.fails }
          intro moves' heq
          rcases hstep.fits moves' heq with ⟨hownedEnd, hkeep, done, hdone, hall, hopen⟩
          refine ⟨hownedEnd, ?_, move :: done, ?_, List.Forall₂.cons ?_ ?_, ?_⟩
          · intro m hm
            rw [hkeep m (List.mem_append_left _ hm)]
            exact hagree m.extent (Multiset.mem_add.mpr
              (Or.inr (List.mem_map_of_mem hm)))
          · rw [hdone, List.append_assoc]
            rfl
          · exact
              { slot := rfl
                entry := rfl
                length := hspec.length
                bytes := (hkeep move (by simp)).trans hmove }
          · -- The remaining items were read after the write, which left them alone.
            apply Moved.of_same hall
            intro x hx
            exact readBytes_write_closed h.sound halloc
              (hitems x (List.mem_cons_of_mem item hx)) c.mem _
          · intro m hm
            rcases List.mem_cons.mp hm with heq | hm
            · rw [heq]
              exact hspec.open_
            · have hout := hopen m hm
              have hclosed : c₁.registry.closed = c.registry.closed := hspec.closed
              rw [hclosed] at hout
              exact hout

theorem considerSegment_target {r : SegmentRegistry} {best : Candidate}
    {entry : SegmentId × SegmentSpace} {target : SegmentId}
    (h : (considerSegment r best entry).target = some target) :
    best.target = some target ∨ entry.1 = target := by
  unfold considerSegment at h
  simp only at h
  split_ifs at h with hskip hutil
  · exact Or.inl h
  · exact Or.inr (Option.some.inj h)
  · exact Or.inl h

theorem compactTarget_registered {r : SegmentRegistry} {threshold : ℚ}
    {target : SegmentId} (h : compactTarget r threshold = some target) :
    exists space, r.spaces.get target = some space := by
  have hfold : forall (entries : List (SegmentId × SegmentSpace)) (best : Candidate),
      (entries.foldl (considerSegment r) best).target = some target ->
        best.target = some target ∨ target ∈ entries.map Prod.fst := by
    intro entries
    induction entries with
    | nil => exact fun best hbest => Or.inl hbest
    | cons entry rest ih =>
        intro best hbest
        rcases ih _ hbest with hhead | hrest
        · rcases considerSegment_target hhead with hold | heq
          · exact Or.inl hold
          · exact Or.inr (by simp [heq])
        · exact Or.inr (List.mem_cons_of_mem _ hrest)
  unfold compactTarget at h
  simp only at h
  split_ifs at h with hcount
  rcases hfold _ _ h with hnone | hmem
  · cases hnone
  · exact OrderedMap.mem_keys_iff.mp hmem

/-- The registry while a compaction relocates the entries of {lit}`target`. -/
def closing (c : FilesystemCache) (target : SegmentId) : FilesystemCache :=
  { c with registry := { c.registry with closed := insert target c.registry.closed } }

def itemsOf (c : FilesystemCache) (target : SegmentId) : List Item :=
  c.index.entries.filterMap (itemOf target)

/-- Every item of a compaction is a published entry of the target. -/
theorem mem_items {c : FilesystemCache} {target : SegmentId} {item : Item}
    (h : item ∈ c.itemsOf target) :
    c.index.get item.slot = some item.entry ∧
      item.entry.kind = EntryKind.shared item.extent.segmentId item.extent.offset
        item.extent.length ∧ item.extent.segmentId = target := by
  rcases List.mem_filterMap.mp h with ⟨⟨slot, entry⟩, hmem, hitem⟩
  unfold itemOf at hitem
  cases hkind : entry.kind with
  | disk path => simp [hkind] at hitem
  | shared segmentId offset length =>
      simp only [hkind] at hitem
      split_ifs at hitem with htarget
      rw [← Option.some.inj hitem]
      exact ⟨OrderedMap.mem_entries_iff.mp hmem, hkind, htarget⟩

theorem items_slots_nodup (c : FilesystemCache) (target : SegmentId) :
    ((c.itemsOf target).map Item.slot).Nodup := by
  have hsub : ((c.index.entries.filterMap (itemOf target)).map Item.slot).Sublist
      (c.index.entries.map Prod.fst) := by
    generalize c.index.entries = entries
    induction entries with
    | nil => exact List.Sublist.slnil
    | cons entry rest ih =>
        cases hitem : itemOf target entry with
        | none =>
            rw [List.filterMap_cons_none hitem]
            exact List.Sublist.cons _ ih
        | some item =>
            have hslot : item.slot = entry.1 := by
              unfold itemOf at hitem
              cases hkind : entry.2.kind with
              | disk path => simp [hkind] at hitem
              | shared segmentId offset length =>
                  simp only [hkind] at hitem
                  split_ifs at hitem
                  rw [← Option.some.inj hitem]
            rw [List.filterMap_cons_some hitem, List.map_cons, List.map_cons, hslot]
            exact List.Sublist.cons_cons _ ih
  exact c.index.nodup.sublist hsub

/-- A plan's move: a published entry, copied byte for byte to a fresh extent. -/
structure MoveSpec (c : FilesystemCache) (mem' : Memory) (move : Item) : Prop where
  published : exists old e, c.index.get move.slot = some old ∧ old.extent? = some e ∧
    move.entry =
      { old with
        kind := EntryKind.shared move.extent.segmentId move.extent.offset
          move.extent.length } ∧
    readBytes mem' move.extent = readBytes c.mem e ∧ move.extent.length = e.length
  extent : move.entry.extent? = some move.extent

structure CompactSpec (c : FilesystemCache) (live : Multiset Extent)
    (c' : FilesystemCache) (result : Option (List Item)) : Prop where
  index : c'.index = c.index
  agree : Agree live c.mem c'.mem
  fails : result = none -> c'.registry.Owned live
  fits : forall moves, result = some moves ->
    c'.registry.Owned (live + movedExtents moves) ∧
      (moves.map Item.slot).Nodup ∧
      forall move, move ∈ moves -> MoveSpec c c'.mem move

/-- A compaction does nothing, or it relocates the items of one segment. -/
theorem compact_eq (c : FilesystemCache) (threshold : ℚ) :
    c.compact threshold = (c, none) ∨
      exists target, compactTarget c.registry threshold = some target ∧
        (forall c' moves, relocate (c.closing target) (c.itemsOf target) [] = (c', some moves) ->
          c.compact threshold = (c', some moves)) ∧
        forall c', relocate (c.closing target) (c.itemsOf target) [] = (c', none) ->
          c.compact threshold =
            ({ c' with
                registry :=
                  { c'.registry with closed := c'.registry.closed.erase target } }, none) := by
  unfold compact
  by_cases hzero : threshold = 0
  · rw [if_pos hzero]
    exact Or.inl rfl
  rw [if_neg hzero]
  cases htarget : compactTarget c.registry threshold with
  | none => exact Or.inl rfl
  | some target =>
      simp only
      by_cases hempty : (c.index.entries.filterMap (itemOf target)).isEmpty = true
      · rw [if_pos hempty]
        exact Or.inl rfl
      rw [if_neg hempty]
      refine Or.inr ⟨target, rfl, ?_, ?_⟩
      · intro c' moves hrelocate
        unfold closing itemsOf at hrelocate
        rw [hrelocate]
      · intro c' hrelocate
        unfold closing itemsOf at hrelocate
        rw [hrelocate]

theorem owned_closing {c : FilesystemCache} {live : Multiset Extent}
    (h : c.registry.Owned live) {target : SegmentId}
    (htarget : exists space, c.registry.spaces.get target = some space) :
    (c.closing target).registry.Owned live := by
  apply owned_closed h
  intro id hid
  rcases Finset.mem_insert.mp hid with heq | hid
  · rw [heq]
    exact htarget
  · exact h.sound.closed hid

theorem relocate_closing {c : FilesystemCache} {live : Multiset Extent}
    (h : c.registry.Owned live) {target : SegmentId}
    (htarget : exists space, c.registry.spaces.get target = some space) :
    RelocateSpec (c.closing target) live (c.itemsOf target) []
      (relocate (c.closing target) (c.itemsOf target) []).1
      (relocate (c.closing target) (c.itemsOf target) []).2 := by
  have hclosed := owned_closing h htarget
  apply relocate_spec (by simpa [movedExtents] using hclosed) hclosed.anchored
  intro item hitem
  rw [(mem_items hitem).2.2]
  exact Finset.mem_insert_self _ _

/-- The moves of a plan, one for each item of the target. -/
theorem moveSpec_of_moved {c : FilesystemCache} {mem' : Memory} {target : SegmentId}
    {moves : List Item} (h : List.Forall₂ (Moved c.mem mem') (c.itemsOf target) moves)
    {move : Item} (hmove : move ∈ moves) (hpos : 0 < move.extent.length) :
    MoveSpec c mem' move := by
  rcases List.forall₂_iff_get.mp h with ⟨hlen, hget⟩
  rcases List.getElem_of_mem hmove with ⟨i, hi, hith⟩
  have hmoved := hget i (hlen ▸ hi) hi
  simp only [List.get_eq_getElem, hith] at hmoved
  rcases mem_items (List.getElem_mem (hlen ▸ hi)) with ⟨hpublished, hkind, _⟩
  constructor
  · refine ⟨_, _, ?_, ?_, hmoved.entry, hmoved.bytes, hmoved.length⟩
    · rw [hmoved.slot]
      exact hpublished
    · unfold Entry.extent?
      rw [hkind]
      exact if_pos (hmoved.length ▸ hpos)
  · unfold Entry.extent?
    rw [hmoved.entry]
    exact if_pos hpos

theorem compact_spec {c : FilesystemCache} {live : Multiset Extent}
    (h : c.registry.Owned live) (threshold : ℚ) :
    CompactSpec c live (c.compact threshold).1 (c.compact threshold).2 := by
  rcases compact_eq c threshold with heq | ⟨target, htarget, hsome, hnone⟩
  · rw [heq]
    exact
      { index := rfl
        agree := agree_refl live c.mem
        fails := fun _ => h
        fits := fun moves heq => by cases heq }
  · have hspec := relocate_closing h (compactTarget_registered htarget)
    rcases hresult : relocate (c.closing target) (c.itemsOf target) [] with ⟨c', result⟩
    rw [hresult] at hspec
    cases result with
    | none =>
        rw [hnone c' hresult]
        exact
          { index := hspec.index
            agree := hspec.agree
            fails := fun _ => owned_closed (hspec.fails rfl) (fun hid =>
              (hspec.fails rfl).sound.closed (Finset.mem_of_mem_erase hid))
            fits := fun moves heq => by cases heq }
    | some moves =>
        rcases hspec.fits moves rfl with ⟨howned, _, done, hdone, hall, _⟩
        rw [List.nil_append] at hdone
        subst hdone
        rw [hsome c' moves hresult]
        refine
          { index := hspec.index
            agree := hspec.agree
            fails := fun heq => by cases heq
            fits := ?_ }
        intro moves' heq
        rw [← Option.some.inj heq]
        refine ⟨howned, ?_, ?_⟩
        · rw [slots_of_moved hall]
          exact items_slots_nodup c target
        · intro move hmove
          have hmoved : List.Forall₂ (Moved c.mem c'.mem) (c.itemsOf target) moves := hall
          exact moveSpec_of_moved hmoved hmove
            (howned.pos _ (Multiset.mem_add.mpr (Or.inr (List.mem_map_of_mem hmove))))

end FilesystemCache
end SharedMemoryFs
