import SharedMemoryFs.Places.Place
import SharedMemoryFs.Kernel.Thread

/-!
# Publications in progress

One publication is a chain of allocations across suspension points.  Until its
epoch is flushed nothing of it is visible, and everything it placed so far is
listed in its own state.  A resume takes what the environment answered: bytes
read, code compiled, representations encoded.
-/

namespace SharedMemoryFs

open Foundation

/-- The changes of an epoch: an entry to publish, or none to unpublish. -/
abbrev Changes := OrderedMap Slot (Option Entry)

def changeExtents (change : Option Entry) : Multiset Extent :=
  change.elim 0 Entry.extents

def Changes.extents (changes : Changes) : Multiset Extent :=
  changes.total changeExtents

/-- {lit}`#stage`.  A provisional entry superseded within the epoch is freed. -/
def stage (state : FilesystemCache × Changes) (change : Slot × Option Entry) :
    FilesystemCache × Changes :=
  ((match state.2.get change.1 with
    | some (some previous) => state.1.free previous
    | _ => state.1),
    state.2.set change.1 change.2)

def stageAll (state : FilesystemCache × Changes) (changes : List (Slot × Option Entry)) :
    FilesystemCache × Changes :=
  changes.foldl stage state

/-- {lit}`#unstage` of the source keys of one place. -/
def unstaged (place : PlaceConfig) (keys : List Key) : List (Slot × Option Entry) :=
  keys.flatMap (fun key =>
    (EntryKey.ofSource key :: place.companions key).map
      (fun k => (⟨place.name, k⟩, none)))

/-- What the environment answers at one resume. -/
structure Answer where
  read : Option Bytes
  compile : BytecodeDomain -> Option Bytes
  encode : Encoding -> Option Bytes

/-- A companion to place: data that could not be built is missing, and a
required one fails its whole publication. -/
structure Companion where
  flavor : Flavor
  data : Option Bytes
  stat : Stat
  required : Bool

def codeCompanion (entry : Entry) (answer : Answer) (domain : BytecodeDomain) : Companion :=
  { flavor := Flavor.bytecode domain
    data := answer.compile domain
    stat :=
      { size := ((answer.compile domain).map List.length).getD 0
        mtimeMs := entry.stat.mtimeMs }
    required := decide (domain = BytecodeDomain.script) }

def encodedCompanion (entry : Entry) (encode : Encoding -> Option Bytes)
    (codec : Codec) : Companion :=
  { flavor := Flavor.compressed codec.encoding
    data := encode codec.encoding
    stat :=
      { size := ((encode codec.encoding).map List.length).getD 0
        mtimeMs := entry.stat.mtimeMs
        sourceSize := some entry.stat.size
        encoding := some codec.encoding }
    required := false }

inductive Phase where
  | bytecode
  | compress
deriving DecidableEq

/-- Where {lit}`#storeShared` is suspended. -/
inductive Stage where
  | source (allocation : Allocation)
  | bytecodeBytes (entry : Entry)
  | companion (phase : Phase) (entry : Entry) (companion : Companion)
      (allocation : Allocation) (rest : List Companion)
  | compress (entry : Entry)
  | compressBytes (entry : Entry)
  | encoding (entry : Entry) (source : Bytes)
  | returned

/-- The epoch a publication stages into: one it shares with other jobs, or its
own, in which the keys of a moved source are already unstaged. -/
inductive Target where
  | shared (epoch : Nat)
  | own (removed : List Key)

structure Store where
  target : Target
  place : PlaceConfig
  key : Key
  input : FileInput
  allocated : List (EntryKey × Entry)
  dropped : List EntryKey
  stage : Stage

/-- One {lit}`renameVirtualTree`, suspended in the allocation of one copy. -/
structure Tree where
  place : PlaceConfig
  copies : List (EntryKey × EntryKey × Entry)
  moving : EntryKey × EntryKey
  allocation : Allocation
  rest : List (EntryKey × EntryKey)

inductive Task where
  | store (store : Store)
  | tree (tree : Tree)

/-- How far a resume brings a publication; one that is done names the changes
it stages, in order. -/
inductive Progress (alpha : Type) where
  | suspended (state : alpha)
  | failed
  | done (changes : List (Slot × Option Entry))

/-!
# Storing one source
-/

def freeAll (c : FilesystemCache) (entries : List Entry) : FilesystemCache :=
  entries.foldl FilesystemCache.free c

namespace Store

def fail (t : Store) (c : FilesystemCache) : FilesystemCache × Progress Store :=
  (freeAll c (t.allocated.map Prod.snd), Progress.failed)

def nextStage (phase : Phase) (entry : Entry) : Stage :=
  match phase with
  | Phase.bytecode => Stage.compress entry
  | Phase.compress => Stage.returned

/-- The loop over the companions of one phase, up to the next suspension. -/
def companions (phase : Phase) (entry : Entry) :
    Store -> FilesystemCache -> List Companion -> FilesystemCache × Progress Store
  | t, c, [] => (c, Progress.suspended { t with stage := nextStage phase entry })
  | t, c, companion :: rest =>
      match companion.data with
      | some data =>
          let input : FileInput :=
            { data := some data, path := none, stat := companion.stat }
          let allocated := c.allocate input companionAlloc
          (allocated.1, Progress.suspended
            { t with stage := Stage.companion phase entry companion allocated.2 rest })
      | none =>
          if companion.required then t.fail c
          else
            companions phase entry
              { t with dropped := t.dropped ++ [⟨t.key, some companion.flavor⟩] } c rest

/-- The canonical bytes of an allocated entry: its view, or a disk read. -/
def entryBytes (c : FilesystemCache) (entry : Entry) (answer : Answer) : Option Bytes :=
  match entry.kind with
  | EntryKind.shared segmentId offset length =>
      some (readBytes c.mem ⟨segmentId, offset, length⟩)
  | EntryKind.disk _ => answer.read

def start (fileExt : Key -> Ext) (target : Target) (place : PlaceConfig) (key : Key)
    (input : FileInput) (c : FilesystemCache) : FilesystemCache × Store :=
  let allocated := c.allocate input (place.allocOptions fileExt key input)
  (allocated.1,
    { target := target
      place := place
      key := key
      input := input
      allocated := []
      dropped := []
      stage := Stage.source allocated.2 })

/-- The reader of a source being filled finished, or threw having left
{lit}`data` in its view. -/
def filled (t : Store) (c : FilesystemCache) (ok : Bool) (data : Bytes) :
    Option (FilesystemCache × Store) :=
  match t.stage with
  | Stage.source (Allocation.filling e) =>
      if ok then
        let done := c.fillDone t.input e data
        some (done.1, { t with stage := Stage.source (Allocation.settled (some done.2)) })
      else some (c.fillFailed e data, { t with stage := Stage.source Allocation.rejected })
  | _ => none

/-- What {lit}`#storeShared` stages: its allocations, then the stale companions. -/
def changes (t : Store) : List (Slot × Option Entry) :=
  t.allocated.map (fun a => (⟨t.place.name, a.1⟩, some a.2)) ++
    t.dropped.map (fun k => (⟨t.place.name, k⟩, none))

def resume (fileExt : Key -> Ext) (t : Store) (c : FilesystemCache) (answer : Answer) :
    Option (FilesystemCache × Progress Store) :=
  match t.stage with
  | Stage.source (Allocation.settled (some entry)) =>
      some (c, Progress.suspended
        { t with
          allocated := t.allocated ++ [(EntryKey.ofSource t.key, entry)]
          stage := if t.place.bytecodeDomains fileExt t.key = [] then
              Stage.compress entry
            else Stage.bytecodeBytes entry })
  | Stage.source (Allocation.settled none) => some (t.fail c)
  | Stage.source Allocation.rejected => some (t.fail c)
  | Stage.source (Allocation.filling _) => none
  | Stage.bytecodeBytes entry =>
      match entryBytes c entry answer with
      | none => some (t.fail c)
      | some _ =>
          some (companions Phase.bytecode entry t c
            ((t.place.bytecodeDomains fileExt t.key).map (codeCompanion entry answer)))
  | Stage.companion phase entry companion (Allocation.settled (some placed)) rest =>
      some (companions phase entry
        { t with
          allocated := t.allocated ++ [(⟨t.key, some companion.flavor⟩, placed)] }
        c rest)
  | Stage.companion phase entry companion (Allocation.settled none) rest =>
      if companion.required then some (t.fail c)
      else
        some (companions phase entry
          { t with dropped := t.dropped ++ [⟨t.key, some companion.flavor⟩] } c rest)
  | Stage.companion _ _ _ Allocation.rejected _ => some (t.fail c)
  | Stage.companion _ _ _ (Allocation.filling _) _ => none
  | Stage.compress entry =>
      some (c, Progress.suspended
        { t with
          stage := if t.place.compressible fileExt t.key then Stage.compressBytes entry
            else Stage.returned })
  | Stage.compressBytes entry =>
      match entryBytes c entry answer with
      | some source => some (c, Progress.suspended { t with stage := Stage.encoding entry source })
      | none =>
          some (companions Phase.compress entry t c
            (t.place.codecs.map (encodedCompanion entry (fun _ => none))))
  | Stage.encoding entry _ =>
      some (companions Phase.compress entry t c
        (t.place.codecs.map (encodedCompanion entry answer.encode)))
  | Stage.returned => some (c, Progress.done t.changes)

end Store

/-!
# Copying a subtree
-/

namespace Tree

/-- The bytes of a projected file. -/
def bytesOf (c : FilesystemCache) (content : Content) : Option Bytes :=
  match content.data with
  | FileData.null => none
  | FileData.empty => some []
  | FileData.view (some segmentId) offset length =>
      some (readBytes c.mem ⟨segmentId, offset, length⟩)
  | FileData.view none _ _ => none

def changes (place : PlaceConfig) (copies : List (EntryKey × EntryKey × Entry)) :
    List (Slot × Option Entry) :=
  copies.flatMap (fun copy =>
    [(⟨place.name, copy.1⟩, none), (⟨place.name, copy.2.1⟩, some copy.2.2)])

/-- The loop over the remaining moves, up to the next suspension. -/
def advance (place : PlaceConfig) (files : OrderedMap Slot File) (c : FilesystemCache)
    (copies : List (EntryKey × EntryKey × Entry)) (moves : List (EntryKey × EntryKey)) :
    FilesystemCache × Progress Tree :=
  match moves with
  | [] => (c, Progress.done (changes place copies))
  | move :: rest =>
      match files.get ⟨place.name, move.1⟩ with
      | none => (freeAll c (copies.map (fun copy => copy.2.2)), Progress.failed)
      | some file =>
          let input : FileInput :=
            { data := bytesOf c file.content, path := none, stat := file.content.stat }
          let allocated := c.allocate input companionAlloc
          (allocated.1, Progress.suspended
            { place := place
              copies := copies
              moving := move
              allocation := allocated.2
              rest := rest })

def resume (t : Tree) (files : OrderedMap Slot File) (c : FilesystemCache) :
    Option (FilesystemCache × Progress Tree) :=
  match t.allocation with
  | Allocation.settled (some entry) =>
      some (advance t.place files c
        (t.copies ++ [(t.moving.1, t.moving.2, entry)]) t.rest)
  | Allocation.settled none =>
      some (freeAll c (t.copies.map (fun copy => copy.2.2)), Progress.failed)
  | Allocation.rejected =>
      some (freeAll c (t.copies.map (fun copy => copy.2.2)), Progress.failed)
  | Allocation.filling _ => none

/-- Without data or path the reader throws. -/
def unfilled (t : Tree) (c : FilesystemCache) (data : Bytes) :
    Option (FilesystemCache × Tree) :=
  match t.allocation with
  | Allocation.filling e =>
      some (c.fillFailed e data, { t with allocation := Allocation.rejected })
  | _ => none

end Tree
/-!
# What a publication owns
-/

def listExtents (entries : List Entry) : Multiset Extent :=
  (entries.map Entry.extents).sum

def Stage.extents : Stage -> Multiset Extent
  | Stage.source allocation => allocation.extents
  | Stage.companion _ _ _ allocation _ => allocation.extents
  | _ => 0

def Store.placed (t : Store) : Multiset Extent := listExtents (t.allocated.map Prod.snd)

def Store.extents (t : Store) : Multiset Extent := t.placed + t.stage.extents

def Tree.extents (t : Tree) : Multiset Extent :=
  listExtents (t.copies.map (fun copy => copy.2.2)) + t.allocation.extents

def Task.extents : Task -> Multiset Extent
  | Task.store t => t.extents
  | Task.tree t => t.extents

def stagedExtents (changes : List (Slot × Option Entry)) : Multiset Extent :=
  (changes.map (fun change => changeExtents change.2)).sum

def Progress.extents (own : alpha -> Multiset Extent) : Progress alpha -> Multiset Extent
  | Progress.suspended state => own state
  | Progress.failed => 0
  | Progress.done changes => stagedExtents changes

theorem listExtents_append (xs ys : List Entry) :
    listExtents (xs ++ ys) = listExtents xs + listExtents ys := by
  unfold listExtents
  rw [List.map_append, List.sum_append]

theorem listExtents_singleton (x : Entry) : listExtents [x] = x.extents := by
  simp [listExtents]

theorem stagedExtents_append (xs ys : List (Slot × Option Entry)) :
    stagedExtents (xs ++ ys) = stagedExtents xs + stagedExtents ys := by
  unfold stagedExtents
  rw [List.map_append, List.sum_append]

theorem stagedExtents_removals (slots : List Slot) :
    stagedExtents (slots.map (fun slot => (slot, none))) = 0 := by
  unfold stagedExtents
  rw [List.map_map]
  exact List.sum_eq_zero (by
    intro x hx
    rcases List.mem_map.mp hx with ⟨slot, _, heq⟩
    exact heq.symm)

theorem owned_freeAll {c : FilesystemCache} {live : Multiset Extent}
    {entries : List Entry} (h : c.registry.Owned (live + listExtents entries)) :
    (freeAll c entries).registry.Owned live := by
  induction entries generalizing c with
  | nil => simpa [freeAll, listExtents] using h
  | cons entry rest ih =>
      refine ih (c := c.free entry) (FilesystemCache.owned_free ?_)
      have hsplit : live + listExtents (entry :: rest) =
          live + listExtents rest + entry.extents := by
        unfold listExtents
        rw [List.map_cons, List.sum_cons]
        abel
      rw [hsplit] at h
      exact h

@[simp] theorem freeAll_index (c : FilesystemCache) (entries : List Entry) :
    (freeAll c entries).index = c.index := by
  induction entries generalizing c with
  | nil => rfl
  | cons entry rest ih => exact (ih (c.free entry)).trans (FilesystemCache.free_index c entry)

@[simp] theorem freeAll_mem (c : FilesystemCache) (entries : List Entry) :
    (freeAll c entries).mem = c.mem := by
  induction entries generalizing c with
  | nil => rfl
  | cons entry rest ih => exact (ih (c.free entry)).trans (FilesystemCache.free_mem c entry)

/-!
# Staging
-/

theorem owned_stage {c : FilesystemCache} {live : Multiset Extent} {changes : Changes}
    {change : Slot × Option Entry}
    (h : c.registry.Owned (live + changes.extents + changeExtents change.2)) :
    (stage (c, changes) change).1.registry.Owned
      (live + (stage (c, changes) change).2.extents) := by
  have hset := OrderedMap.total_set changes change.1 change.2 changeExtents
  unfold stage
  simp only
  cases hget : changes.get change.1 with
  | none =>
      rw [hget, Option.elim_none, add_zero] at hset
      unfold Changes.extents at *
      rw [hset, ← add_assoc]
      exact h
  | some previous =>
      rw [hget, Option.elim_some] at hset
      cases previous with
      | none =>
          have hzero : changeExtents none = 0 := rfl
          rw [hzero, add_zero] at hset
          unfold Changes.extents at *
          rw [hset, ← add_assoc]
          exact h
      | some previous =>
          refine FilesystemCache.owned_free ?_
          have hsome : changeExtents (some previous) = previous.extents := rfl
          rw [hsome] at hset
          unfold Changes.extents at *
          rw [add_assoc, hset, ← add_assoc]
          exact h

theorem owned_stageAll {c : FilesystemCache} {live : Multiset Extent} {changes : Changes}
    {list : List (Slot × Option Entry)}
    (h : c.registry.Owned (live + changes.extents + stagedExtents list)) :
    (stageAll (c, changes) list).1.registry.Owned
      (live + (stageAll (c, changes) list).2.extents) := by
  induction list generalizing c changes with
  | nil => simpa [stageAll, stagedExtents] using h
  | cons change rest ih =>
      show (stageAll (stage (c, changes) change) rest).1.registry.Owned
        (live + (stageAll (stage (c, changes) change) rest).2.extents)
      refine ih ?_
      have hsplit : live + changes.extents + stagedExtents (change :: rest) =
          live + stagedExtents rest + changes.extents + changeExtents change.2 := by
        unfold stagedExtents
        rw [List.map_cons, List.sum_cons]
        abel
      rw [hsplit] at h
      have hnext := owned_stage h
      rw [add_right_comm] at hnext
      exact hnext

theorem stage_index (state : FilesystemCache × Changes) (change : Slot × Option Entry) :
    (stage state change).1.index = state.1.index ∧
      (stage state change).1.mem = state.1.mem := by
  unfold stage
  rcases state.2.get change.1 with _ | _ | previous
  · exact ⟨rfl, rfl⟩
  · exact ⟨rfl, rfl⟩
  · exact ⟨FilesystemCache.free_index _ _, FilesystemCache.free_mem _ _⟩

theorem stageAll_index (state : FilesystemCache × Changes)
    (list : List (Slot × Option Entry)) :
    (stageAll state list).1.index = state.1.index ∧
      (stageAll state list).1.mem = state.1.mem := by
  induction list generalizing state with
  | nil => exact ⟨rfl, rfl⟩
  | cons change rest ih =>
      rcases ih (stage state change) with ⟨hindex, hmem⟩
      rcases stage_index state change with ⟨hindex', hmem'⟩
      exact ⟨hindex.trans hindex', hmem.trans hmem'⟩

/-!
# Resuming keeps ownership
-/

/-- The outcome of one resume: whatever was placed is still accounted for. -/
structure ProgressSpec (c : FilesystemCache) (live held : Multiset Extent)
    (own : alpha -> Multiset Extent) (result : FilesystemCache × Progress alpha) :
    Prop where
  owned : result.1.registry.Owned (live + result.2.extents own)
  index : result.1.index = c.index
  agree : FilesystemCache.Agree (live + held) c.mem result.1.mem

theorem progressSpec_failed {c : FilesystemCache} {live : Multiset Extent}
    {own : alpha -> Multiset Extent} {entries : List Entry}
    (h : c.registry.Owned (live + listExtents entries)) (held : Multiset Extent) :
    ProgressSpec c live held own (freeAll c entries, Progress.failed) where
  owned := by
    show (freeAll c entries).registry.Owned (live + 0)
    rw [add_zero]
    exact owned_freeAll h
  index := freeAll_index c entries
  agree := by
    show FilesystemCache.Agree _ c.mem (freeAll c entries).mem
    rw [freeAll_mem]
    exact FilesystemCache.agree_refl _ _

theorem progressSpec_same {c : FilesystemCache} {live held : Multiset Extent}
    {own : alpha -> Multiset Extent} {progress : Progress alpha}
    (h : c.registry.Owned (live + held)) (heq : progress.extents own = held) :
    ProgressSpec c live held own (c, progress) where
  owned := by
    rw [heq]
    exact h
  index := rfl
  agree := FilesystemCache.agree_refl _ _

theorem nextStage_extents (phase : Phase) (entry : Entry) :
    (Store.nextStage phase entry).extents = 0 := by
  cases phase <;> rfl

theorem companions_spec {c : FilesystemCache} {live : Multiset Extent} {t : Store}
    (phase : Phase) (entry : Entry) (list : List Companion)
    (h : c.registry.Owned (live + t.placed)) :
    ProgressSpec c live t.placed Store.extents (t.companions phase entry c list) := by
  induction list generalizing t with
  | nil =>
      refine progressSpec_same h ?_
      show t.placed + (Store.nextStage phase entry).extents = t.placed
      rw [nextStage_extents, add_zero]
  | cons companion rest ih =>
      unfold Store.companions
      cases hdata : companion.data with
      | some data =>
          have halloc := FilesystemCache.allocate_spec h
            { data := some data, path := none, stat := companion.stat } companionAlloc
          exact
            { owned := by
                show (c.allocate _ companionAlloc).1.registry.Owned
                  (live + (t.placed + (c.allocate _ companionAlloc).2.extents))
                rw [← add_assoc]
                exact halloc.owned
              index := halloc.index
              agree := halloc.agree }
      | none =>
          cases hrequired : companion.required with
          | true =>
              simp only [if_true]
              exact progressSpec_failed h t.placed
          | false =>
              simp only [Bool.false_eq_true, if_false]
              exact ih (t := { t with dropped := t.dropped ++ _ }) h

theorem stagedExtents_changes (t : Store) : stagedExtents t.changes = t.placed := by
  unfold Store.changes
  have hdropped := stagedExtents_removals
    (t.dropped.map (fun k => (⟨t.place.name, k⟩ : Slot)))
  rw [List.map_map] at hdropped
  rw [stagedExtents_append]
  have hzero : stagedExtents
      (t.dropped.map (fun k => ((⟨t.place.name, k⟩ : Slot), (none : Option Entry)))) = 0 :=
    hdropped
  rw [hzero, add_zero]
  unfold stagedExtents Store.placed listExtents
  rw [List.map_map, List.map_map]
  rfl

theorem Store.placed_append (t : Store) (key : EntryKey) (entry : Entry) :
    listExtents ((t.allocated ++ [(key, entry)]).map Prod.snd) =
      t.placed + entry.extents := by
  rw [List.map_append, listExtents_append]
  exact congrArg (t.placed + ·) (listExtents_singleton entry)

/-- The loop goes on with one more allocation taken in. -/
theorem companions_placed {c : FilesystemCache} {live : Multiset Extent} {t : Store}
    (phase : Phase) (entry : Entry) (key : EntryKey) (placed : Entry)
    (list : List Companion)
    (h : c.registry.Owned (live + (t.placed + placed.extents))) :
    ProgressSpec c live t.placed Store.extents
      (Store.companions phase entry
        { t with allocated := t.allocated ++ [(key, placed)] } c list) := by
  have hspec := companions_spec (t := { t with allocated := t.allocated ++ [(key, placed)] })
    phase entry list (by
      show c.registry.Owned (live + listExtents _)
      rw [Store.placed_append]
      exact h)
  refine
    { owned := hspec.owned
      index := hspec.index
      agree := hspec.agree.mono ?_ }
  intro e he
  show e ∈ live + listExtents _
  rw [Store.placed_append, ← add_assoc]
  exact Multiset.mem_add.mpr (Or.inl he)

theorem Store.resume_spec {fileExt : Key -> Ext} {c : FilesystemCache}
    {live : Multiset Extent} {t : Store} {answer : Answer}
    {result : FilesystemCache × Progress Store}
    (h : c.registry.Owned (live + t.extents))
    (hresume : t.resume fileExt c answer = some result) :
    ProgressSpec c live t.placed Store.extents result := by
  have hplaced : t.stage.extents = 0 -> c.registry.Owned (live + t.placed) := by
    intro hzero
    unfold Store.extents at h
    rw [hzero, add_zero] at h
    exact h
  unfold Store.resume at hresume
  cases hstage : t.stage with
  | source allocation =>
      cases allocation with
      | settled settled =>
          cases settled with
          | some entry =>
              simp only [hstage] at hresume
              rw [← Option.some.inj hresume]
              have howned : c.registry.Owned (live + (t.placed + entry.extents)) := by
                unfold Store.extents at h
                rw [hstage] at h
                exact h
              have hnext : forall stage : Stage, stage.extents = 0 ->
                  ProgressSpec c live t.placed Store.extents
                    (c, Progress.suspended
                      { t with
                        allocated := t.allocated ++ [(EntryKey.ofSource t.key, entry)]
                        stage := stage }) := by
                intro stage hzero
                refine
                  { owned := ?_
                    index := rfl
                    agree := FilesystemCache.agree_refl _ _ }
                show c.registry.Owned (live + (listExtents _ + stage.extents))
                rw [Store.placed_append, hzero, add_zero]
                exact howned
              refine hnext _ ?_
              split_ifs <;> rfl
          | none =>
              simp only [hstage] at hresume
              rw [← Option.some.inj hresume]
              exact progressSpec_failed (hplaced (by rw [hstage]; rfl)) _
      | rejected =>
          simp only [hstage] at hresume
          rw [← Option.some.inj hresume]
          exact progressSpec_failed (hplaced (by rw [hstage]; rfl)) _
      | filling e =>
          simp only [hstage] at hresume
          cases hresume
  | bytecodeBytes entry =>
      have howned := hplaced (by rw [hstage]; rfl)
      simp only [hstage] at hresume
      cases hbytes : Store.entryBytes c entry answer with
      | none =>
          simp only [hbytes] at hresume
          rw [← Option.some.inj hresume]
          exact progressSpec_failed howned _
      | some source =>
          simp only [hbytes] at hresume
          rw [← Option.some.inj hresume]
          exact companions_spec Phase.bytecode entry _ howned
  | companion phase entry companion allocation rest =>
      cases allocation with
      | settled settled =>
          cases settled with
          | some placed =>
              simp only [hstage] at hresume
              rw [← Option.some.inj hresume, ← hstage]
              refine companions_placed (t := t) phase entry _ placed rest ?_
              unfold Store.extents at h
              rw [hstage] at h
              exact h
          | none =>
              have howned := hplaced (by rw [hstage]; rfl)
              simp only [hstage] at hresume
              cases hrequired : companion.required with
              | true =>
                  simp only [hrequired, if_true] at hresume
                  rw [← Option.some.inj hresume]
                  exact progressSpec_failed howned _
              | false =>
                  simp only [hrequired, Bool.false_eq_true, if_false] at hresume
                  rw [← Option.some.inj hresume, ← hstage]
                  exact companions_spec
                    (t := { t with
                      dropped := t.dropped ++ [⟨t.key, some companion.flavor⟩] })
                    phase entry rest howned
      | rejected =>
          simp only [hstage] at hresume
          rw [← Option.some.inj hresume]
          exact progressSpec_failed (hplaced (by rw [hstage]; rfl)) _
      | filling e =>
          simp only [hstage] at hresume
          cases hresume
  | compress entry =>
      have howned := hplaced (by rw [hstage]; rfl)
      simp only [hstage] at hresume
      rw [← Option.some.inj hresume]
      refine progressSpec_same howned ?_
      show t.placed + (if _ then Stage.compressBytes entry else Stage.returned).extents =
        t.placed
      split_ifs <;> exact add_zero _
  | compressBytes entry =>
      have howned := hplaced (by rw [hstage]; rfl)
      simp only [hstage] at hresume
      cases hbytes : Store.entryBytes c entry answer with
      | none =>
          simp only [hbytes] at hresume
          rw [← Option.some.inj hresume]
          exact companions_spec Phase.compress entry _ howned
      | some source =>
          simp only [hbytes] at hresume
          rw [← Option.some.inj hresume]
          exact progressSpec_same howned (add_zero _)
  | encoding entry source =>
      have howned := hplaced (by rw [hstage]; rfl)
      simp only [hstage] at hresume
      rw [← Option.some.inj hresume]
      exact companions_spec Phase.compress entry _ howned
  | returned =>
      have howned := hplaced (by rw [hstage]; rfl)
      simp only [hstage] at hresume
      rw [← Option.some.inj hresume]
      exact progressSpec_same howned (stagedExtents_changes t)

theorem Store.start_spec {c : FilesystemCache} {live : Multiset Extent}
    (h : c.registry.Owned live) (fileExt : Key -> Ext) (target : Target)
    (place : PlaceConfig) (key : Key) (input : FileInput) :
    (Store.start fileExt target place key input c).1.registry.Owned
        (live + (Store.start fileExt target place key input c).2.extents) ∧
      (Store.start fileExt target place key input c).1.index = c.index ∧
      FilesystemCache.Agree live c.mem (Store.start fileExt target place key input c).1.mem := by
  have halloc := FilesystemCache.allocate_spec h input (place.allocOptions fileExt key input)
  refine ⟨?_, halloc.index, halloc.agree⟩
  show (c.allocate _ _).1.registry.Owned (live + (0 + (c.allocate _ _).2.extents))
  rw [zero_add]
  exact halloc.owned

theorem Store.filled_spec {c : FilesystemCache} {live : Multiset Extent} {t : Store}
    {ok : Bool} {data : Bytes} {result : FilesystemCache × Store}
    (h : c.registry.Owned (live + t.extents)) (hfilled : t.filled c ok data = some result) :
    result.1.registry.Owned (live + result.2.extents) ∧ result.1.index = c.index ∧
      FilesystemCache.Agree (live + t.placed) c.mem result.1.mem := by
  unfold Store.filled at hfilled
  unfold Store.extents at h
  cases hstage : t.stage with
  | source allocation =>
      cases allocation with
      | filling e =>
          have howned : c.registry.Owned (live + t.placed + {e}) := by
            rw [hstage, ← add_assoc] at h
            exact h
          cases ok with
          | true =>
              simp only [hstage, if_true, Option.some.injEq] at hfilled
              rw [← hfilled]
              refine ⟨?_, rfl, FilesystemCache.agree_fillDone howned t.input data⟩
              show c.registry.Owned
                (live + (t.placed + (sharedEntry t.input e).extents))
              rw [FilesystemCache.extents_sharedEntry t.input (howned.pos e (by simp)),
                ← add_assoc]
              exact howned
          | false =>
              simp only [hstage, Bool.false_eq_true, if_false, Option.some.injEq]
                at hfilled
              rw [← hfilled]
              have hfailed := FilesystemCache.owned_fillFailed howned data
              refine ⟨?_, rfl, hfailed.2⟩
              show (c.fillFailed e data).registry.Owned (live + (t.placed + 0))
              rw [add_zero]
              exact hfailed.1
      | settled entry => simp [hstage] at hfilled
      | rejected => simp [hstage] at hfilled
  | bytecodeBytes entry => simp [hstage] at hfilled
  | companion phase entry companion allocation rest => simp [hstage] at hfilled
  | compress entry => simp [hstage] at hfilled
  | compressBytes entry => simp [hstage] at hfilled
  | encoding entry source => simp [hstage] at hfilled
  | returned => simp [hstage] at hfilled

/-!
# Subtree copies keep ownership
-/

def copiedExtents (copies : List (EntryKey × EntryKey × Entry)) : Multiset Extent :=
  listExtents (copies.map (fun copy => copy.2.2))

theorem stagedExtents_copies (place : PlaceConfig)
    (copies : List (EntryKey × EntryKey × Entry)) :
    stagedExtents (Tree.changes place copies) = copiedExtents copies := by
  induction copies with
  | nil => rfl
  | cons copy rest ih =>
      have hsplit : Tree.changes place (copy :: rest) =
          [(⟨place.name, copy.1⟩, none), (⟨place.name, copy.2.1⟩, some copy.2.2)] ++
            Tree.changes place rest := rfl
      rw [hsplit, stagedExtents_append, ih]
      simp [stagedExtents, changeExtents, copiedExtents, listExtents]

theorem advance_spec {c : FilesystemCache} {live : Multiset Extent} (place : PlaceConfig)
    (files : OrderedMap Slot File) (copies : List (EntryKey × EntryKey × Entry))
    (moves : List (EntryKey × EntryKey))
    (h : c.registry.Owned (live + copiedExtents copies)) :
    ProgressSpec c live (copiedExtents copies) Tree.extents
      (Tree.advance place files c copies moves) := by
  unfold Tree.advance
  cases moves with
  | nil => exact progressSpec_same h (stagedExtents_copies place copies)
  | cons move rest =>
      simp only
      cases hget : files.get ⟨place.name, move.1⟩ with
      | none => exact progressSpec_failed h _
      | some file =>
          have halloc := FilesystemCache.allocate_spec h
            { data := Tree.bytesOf c file.content, path := none, stat := file.content.stat }
            companionAlloc
          exact
            { owned := by
                show (c.allocate _ companionAlloc).1.registry.Owned
                  (live + (copiedExtents copies + (c.allocate _ companionAlloc).2.extents))
                rw [← add_assoc]
                exact halloc.owned
              index := halloc.index
              agree := halloc.agree }

theorem Tree.resume_spec {c : FilesystemCache} {live : Multiset Extent} {t : Tree}
    {files : OrderedMap Slot File} {result : FilesystemCache × Progress Tree}
    (h : c.registry.Owned (live + t.extents))
    (hresume : t.resume files c = some result) :
    ProgressSpec c live (copiedExtents t.copies) Tree.extents result := by
  unfold Tree.resume at hresume
  unfold Tree.extents at h
  have hfailed : t.allocation.extents = 0 -> ProgressSpec c live (copiedExtents t.copies)
      Tree.extents (freeAll c (t.copies.map (fun copy => copy.2.2)), Progress.failed) := by
    intro hzero
    rw [hzero, add_zero] at h
    exact progressSpec_failed h _
  cases hallocation : t.allocation with
  | settled settled =>
      cases settled with
      | some entry =>
          simp only [hallocation] at hresume
          rw [← Option.some.inj hresume]
          have hcopies : copiedExtents (t.copies ++ [(t.moving.1, t.moving.2, entry)]) =
              copiedExtents t.copies + entry.extents := by
            unfold copiedExtents
            rw [List.map_append, listExtents_append]
            exact congrArg (_ + ·) (listExtents_singleton entry)
          have hspec := advance_spec t.place files
            (t.copies ++ [(t.moving.1, t.moving.2, entry)]) t.rest (by
              rw [hcopies]
              rw [hallocation] at h
              exact h)
          refine
            { owned := hspec.owned
              index := hspec.index
              agree := hspec.agree.mono ?_ }
          intro e he
          rw [hcopies, ← add_assoc]
          exact Multiset.mem_add.mpr (Or.inl he)
      | none =>
          simp only [hallocation] at hresume
          rw [← Option.some.inj hresume]
          exact hfailed (by rw [hallocation]; rfl)
  | rejected =>
      simp only [hallocation] at hresume
      rw [← Option.some.inj hresume]
      exact hfailed (by rw [hallocation]; rfl)
  | filling e =>
      simp only [hallocation] at hresume
      cases hresume

theorem Tree.unfilled_spec {c : FilesystemCache} {live : Multiset Extent} {t : Tree}
    {data : Bytes} {result : FilesystemCache × Tree}
    (h : c.registry.Owned (live + t.extents)) (hunfilled : t.unfilled c data = some result) :
    result.1.registry.Owned (live + result.2.extents) ∧ result.1.index = c.index ∧
      FilesystemCache.Agree (live + copiedExtents t.copies) c.mem result.1.mem := by
  unfold Tree.unfilled at hunfilled
  unfold Tree.extents at h
  cases hallocation : t.allocation with
  | filling e =>
      simp only [hallocation, Option.some.injEq] at hunfilled
      rw [hallocation, ← add_assoc] at h
      rw [← hunfilled]
      have hfailed := FilesystemCache.owned_fillFailed h data
      refine ⟨?_, rfl, hfailed.2⟩
      show (c.fillFailed e data).registry.Owned (live + (_ + 0))
      rw [add_zero]
      exact hfailed.1
  | settled entry => simp [hallocation] at hunfilled
  | rejected => simp [hallocation] at hunfilled

end SharedMemoryFs
