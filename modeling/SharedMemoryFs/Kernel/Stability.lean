import SharedMemoryFs.Kernel.Lifetime
import SharedMemoryFs.Kernel.Freeing

/-!
# Bytes that stay

Only fresh bytes are ever written: those an allocation hands out and those a
publication still fills.  So the bytes of an extent stay as long as something
anchors it, such as a pin, or a version a worker has yet to leave behind.  Every
index a step adds to the log says, byte for byte, what is published after the step.
-/

namespace SharedMemoryFs

open Foundation FilesystemCache

def Worker.thread? (worker : Worker) : Option Thread :=
  match worker with
  | Worker.attached t => some t
  | _ => none

/-- The thread of a holder, while it lives. -/
def VfsKernel.thread? (k : VfsKernel) (who : Holder) : Option Thread :=
  match who with
  | Holder.main => some k.main
  | Holder.link id => (k.links.get id).bind (fun link => link.worker.thread?)

def Thread.heldPins (t : Thread) : OrderedMap ConsumerId File := t.pins.held

/-- Inside a step: the consumers and the workers stay, the log only grows. -/
structure VfsKernel.Kept (k k' : VfsKernel) : Prop where
  held : k'.main.heldPins = k.main.heldPins
  links : forall id, (k'.links.get id).map (fun l => (l.worker, l.since, l.applied)) =
    (k.links.get id).map (fun l => (l.worker, l.since, l.applied))
  history : k.history <+: k'.history

namespace VfsKernel

theorem Kept.refl (k : VfsKernel) : Kept k k := ⟨rfl, fun _ => rfl, List.prefix_rfl⟩

theorem Kept.trans {k k' k'' : VfsKernel} (h : Kept k k') (h' : Kept k' k'') : Kept k k'' where
  held := h'.held.trans h.held
  links := fun id => (h'.links id).trans (h.links id)
  history := h.history.trans h'.history

theorem Kept.of_eq {k k' : VfsKernel} (hmain : k'.main = k.main) (hlinks : k'.links = k.links)
    (hhistory : k'.history = k.history) : Kept k k' where
  held := by rw [hmain]
  links := fun id => by rw [hlinks]
  history := by rw [hhistory]

theorem Kept.link {k k' : VfsKernel} (h : Kept k k') {id : LinkId} {link : Link}
    (hget : k.links.get id = some link) : exists link', k'.links.get id = some link' ∧
      link'.worker = link.worker ∧ link'.since = link.since ∧ link'.applied = link.applied := by
  have hlinks := h.links id
  rw [hget, Option.map_some] at hlinks
  cases hget' : k'.links.get id with
  | none =>
      rw [hget'] at hlinks
      cases hlinks
  | some link' =>
      rw [hget', Option.map_some, Option.some.injEq, Prod.mk.injEq, Prod.mk.injEq] at hlinks
      exact ⟨link', rfl, hlinks.1, hlinks.2.1, hlinks.2.2⟩

end VfsKernel

/-!
# Anchors
-/

/-- A reason why nobody may write {lit}`e`: a published or retired version owns
it, and nothing inside a step takes the reason away. -/
structure Anchor (e : Extent) where
  holds : VfsKernel -> Prop
  base : forall k extra, VfsKernel.Sound k extra -> holds k -> e ∈ k.base
  kept : forall k k', VfsKernel.Kept k k' -> holds k -> holds k'

/-- A consumer of a live thread pinned the bytes and did not release them. -/
def VfsKernel.Reads (k : VfsKernel) (who : Holder) (consumer : ConsumerId) (file : File) :
    Prop :=
  exists t, k.thread? who = some t ∧ t.pins.held.get consumer = some file

theorem VfsKernel.Sound.reads_base {k : VfsKernel} {extra : Multiset Extent}
    (h : k.Sound extra) {who : Holder} {consumer : ConsumerId} {file : File} {e : Extent}
    (hreads : k.Reads who consumer file) (he : file.content.extent? = some e) :
    e ∈ k.base := by
  rcases hreads with ⟨t, ht, hheld⟩
  have href : t.Refers e := Thread.Refers.pinned consumer file hheld he
  cases who with
  | main =>
      cases ht
      exact h.main_base href
  | link id =>
      rcases Option.bind_eq_some_iff.mp ht with ⟨link, hget, hthread⟩
      cases hworker : link.worker with
      | attached attached =>
          rw [hworker] at hthread
          cases hthread
          exact h.worker_base hget hworker href
      | handed snapshot =>
          rw [hworker] at hthread
          cases hthread
      | exited =>
          rw [hworker] at hthread
          cases hthread

theorem VfsKernel.Kept.thread {k k' : VfsKernel} (h : k.Kept k') (who : Holder) :
    (k'.thread? who).map Thread.heldPins = (k.thread? who).map Thread.heldPins := by
  cases who with
  | main => exact congrArg some h.held
  | link id =>
      have hworker : (k'.links.get id).map Link.worker = (k.links.get id).map Link.worker := by
        have hlinks := congrArg (Option.map Prod.fst) (h.links id)
        rw [Option.map_map, Option.map_map] at hlinks
        exact hlinks
      have hthread : forall k : VfsKernel, k.thread? (Holder.link id) =
          ((k.links.get id).map Link.worker).bind Worker.thread? := by
        intro k
        show (k.links.get id).bind _ = _
        cases k.links.get id <;> rfl
      rw [hthread, hthread, hworker]

theorem VfsKernel.reads_iff {k : VfsKernel} {who : Holder} {consumer : ConsumerId}
    {file : File} : k.Reads who consumer file <->
      exists held, (k.thread? who).map Thread.heldPins = some held ∧
        held.get consumer = some file := by
  constructor
  · intro h
    cases h with
    | intro t ht => exact ⟨t.heldPins, by rw [ht.1, Option.map_some], ht.2⟩
  · intro h
    cases h with
    | intro held hheld =>
        rcases Option.map_eq_some_iff.mp hheld.1 with ⟨t, ht, heq⟩
        exact ⟨t, ht, by rw [← heq] at hheld; exact hheld.2⟩

theorem VfsKernel.Kept.reads {k k' : VfsKernel} (h : k.Kept k') {who : Holder}
    {consumer : ConsumerId} {file : File} :
    k'.Reads who consumer file <-> k.Reads who consumer file := by
  rw [VfsKernel.reads_iff, VfsKernel.reads_iff, h.thread who]

def pinAnchor (who : Holder) (consumer : ConsumerId) (file : File) {e : Extent}
    (he : file.content.extent? = some e) : Anchor e where
  holds := fun k => k.Reads who consumer file
  base := fun _ _ h hreads => h.reads_base hreads he
  kept := fun _ _ hkept hreads => hkept.reads.mpr hreads

/-- A link of the kernel has not passed the {lit}`n`-th update yet, after which
{lit}`slot` stood for a version with these bytes. -/
def VfsKernel.Awaiting (k : VfsKernel) (id : LinkId) (n : Nat) (slot : Slot) (e : Extent) :
    Prop :=
  exists link index entry, k.links.get id = some link ∧ link.since + link.applied ≤ n ∧
    k.history[n]? = some index ∧ index.get slot = some entry ∧ entry.extent? = some e

theorem VfsKernel.Kept.awaiting {k k' : VfsKernel} (h : k.Kept k') {id : LinkId} {n : Nat}
    {slot : Slot} {e : Extent} (hawaits : k.Awaiting id n slot e) :
    k'.Awaiting id n slot e := by
  rcases hawaits with ⟨link, index, entry, hget, hle, hindex, hentry, he⟩
  rcases h.link hget with ⟨link', hget', _, hsince, happlied⟩
  rcases h.history with ⟨later, hlater⟩
  refine ⟨link', index, entry, hget', ?_, ?_, hentry, he⟩
  · rw [hsince, happlied]
    exact hle
  · rw [← hlater, List.getElem?_append_left (List.getElem?_eq_some_iff.mp hindex).1]
    exact hindex

def logAnchor (id : LinkId) (n : Nat) (slot : Slot) (e : Extent) : Anchor e where
  holds := fun k => k.Awaiting id n slot e
  base := by
    intro k extra h hawaits
    rcases hawaits with ⟨link, index, entry, hget, hle, hindex, hentry, he⟩
    exact h.version_base hget hle hindex hentry he
  kept := fun _ _ hkept hawaits => hkept.awaiting hawaits

/-!
# Inside a step
-/

namespace VfsKernel

/-- What an anchor holds is not written on the way from {lit}`k` to {lit}`k'`, and the
indexes added to the log, as the workers still read them, publish what {lit}`k'` does. -/
structure Fresh (k k' : VfsKernel) : Prop where
  kept : Kept k k'
  bytes : forall {e : Extent} (anchor : Anchor e), anchor.holds k ->
    readBytes k'.cache.mem e = readBytes k.cache.mem e
  echo : forall {id link n index}, k'.links.get id = some link ->
    link.since + link.applied ≤ n -> k.history.length ≤ n -> k'.history[n]? = some index ->
    forall slot, (index.get slot).map (Entry.fileIn k'.cache.mem) = k'.cache.file slot

/-- Every published file stays as well. -/
structure Steady (k k' : VfsKernel) : Prop extends Fresh k k' where
  file : forall slot, k'.cache.file slot = k.cache.file slot

/-- Files read through an index the link has not passed stay while nothing anchored
is written. -/
theorem fileIn_kept {k k' : VfsKernel} (h : Fresh k k') {id : LinkId} {link : Link} {n : Nat}
    {index : Index} (hlink : k.links.get id = some link)
    (hle : link.since + link.applied ≤ n) (hindex : k.history[n]? = some index) (slot : Slot) :
    (index.get slot).map (Entry.fileIn k'.cache.mem) =
      (index.get slot).map (Entry.fileIn k.cache.mem) := by
  cases hget : index.get slot with
  | none => rfl
  | some entry =>
      apply congrArg some
      apply fileIn_congr
      intro e he
      exact h.bytes (logAnchor id n slot e) ⟨link, index, entry, hlink, hle, hindex, hget, he⟩

theorem Kept.link_back {k k' : VfsKernel} (h : Kept k k') {id : LinkId} {link' : Link}
    (hget : k'.links.get id = some link') : exists link, k.links.get id = some link ∧
      link.since = link'.since ∧ link.applied = link'.applied := by
  have hlinks := h.links id
  rw [hget, Option.map_some] at hlinks
  rcases Option.map_eq_some_iff.mp hlinks.symm with ⟨link, hlink, heq⟩
  rw [Prod.mk.injEq, Prod.mk.injEq] at heq
  exact ⟨link, hlink, heq.2.1, heq.2.2⟩

theorem Kept.index_back {k k' : VfsKernel} (h : Kept k k') {n : Nat} {index : Index}
    (hn : n < k.history.length) (hindex : k'.history[n]? = some index) :
    k.history[n]? = some index := by
  rcases h.history with ⟨later, hlater⟩
  rw [← hlater, List.getElem?_append_left hn] at hindex
  exact hindex

theorem Fresh.trans {k k' k'' : VfsKernel} (h : Fresh k k') (h' : Steady k' k'') :
    Fresh k k'' where
  kept := h.kept.trans h'.kept
  bytes := fun anchor hholds =>
    (h'.bytes anchor (anchor.kept _ _ h.kept hholds)).trans (h.bytes anchor hholds)
  echo := by
    intro id link'' n index hlink'' hle hlength hindex slot
    by_cases hn : n < k'.history.length
    · have hindex' := h'.kept.index_back hn hindex
      rcases h'.kept.link_back hlink'' with ⟨link', hlink', hsince, happlied⟩
      have hle' : link'.since + link'.applied ≤ n := by
        rw [hsince, happlied]
        exact hle
      rw [fileIn_kept h'.toFresh hlink' hle' hindex' slot, h'.file slot]
      exact h.echo hlink' hle' hlength hindex' slot
    · exact h'.echo hlink'' hle (not_lt.mp hn) hindex slot

theorem Steady.trans {k k' k'' : VfsKernel} (h : Steady k k') (h' : Steady k' k'') :
    Steady k k'' where
  toFresh := h.toFresh.trans h'
  file := fun slot => (h'.file slot).trans (h.file slot)

/-- The log stands still in the first part. -/
theorem Fresh.after {k k' k'' : VfsKernel} (h' : Fresh k' k'') (h : Fresh k k')
    (hhistory : k'.history = k.history) : Fresh k k'' where
  kept := h.kept.trans h'.kept
  bytes := fun anchor hholds =>
    (h'.bytes anchor (anchor.kept _ _ h.kept hholds)).trans (h.bytes anchor hholds)
  echo := fun hlink hle hlength hindex slot =>
    h'.echo hlink hle (hhistory ▸ hlength) hindex slot

/-- The log stands still, and what is written lies outside the extents of
{lit}`live`. -/
theorem Fresh.of_agree {k k' : VfsKernel} {extra live : Multiset Extent} (h : k.Sound extra)
    (hkept : Kept k k') (hhistory : k'.history = k.history)
    (hlive : forall e, e ∈ k.base -> e ∈ live)
    (hagree : Agree live k.cache.mem k'.cache.mem) : Fresh k k' where
  kept := hkept
  bytes := fun {e} anchor hholds => hagree e (hlive e (anchor.base k extra h hholds))
  echo := by
    intro id link n index _ _ hlength hindex
    rw [hhistory] at hindex
    exact absurd (List.getElem?_eq_some_iff.mp hindex).1 (not_lt.mpr hlength)

theorem Fresh.of_mem {k k' : VfsKernel} (hkept : Kept k k')
    (hhistory : k'.history = k.history) (hmem : k'.cache.mem = k.cache.mem) : Fresh k k' where
  kept := hkept
  bytes := fun _ _ => by rw [hmem]
  echo := by
    intro id link n index _ _ hlength hindex
    rw [hhistory] at hindex
    exact absurd (List.getElem?_eq_some_iff.mp hindex).1 (not_lt.mpr hlength)

theorem Fresh.refl (k : VfsKernel) : Fresh k k := Fresh.of_mem (Kept.refl k) rfl rfl

theorem base_owned {k : VfsKernel} {extra : Multiset Extent} (e : Extent) (h : e ∈ k.base) :
    e ∈ k.owners + extra := Multiset.mem_add.mpr (Or.inl (mem_owners_base h))

theorem freeSettled_steady (k : VfsKernel) (ids : List RetireId) :
    Steady k (k.freeSettled ids).1 where
  toFresh := Fresh.of_mem (Kept.of_eq rfl rfl rfl) rfl (freeAll_mem _ _)
  file := freeSettled_file k ids

theorem setFiles_pins (t : Thread) (entries : List (Slot × Entry)) :
    (entries.foldl Thread.setFile t).pins = t.pins := by
  induction entries generalizing t with
  | nil => rfl
  | cons head rest ih => exact ih (t.setFile head)

theorem apply_held (t : Thread) (u : Update) : (t.apply u).1.heldPins = t.heldPins := by
  have hpins : (t.apply u).1.pins = (t.pins.retainAll t.files u.retired).1 :=
    setFiles_pins _ u.entries
  show (t.apply u).1.pins.held = t.pins.held
  rw [hpins]
  exact (retainAll_counts t.files t.pins u.retired).2

theorem announce_fresh (k : VfsKernel) (cache : FilesystemCache) (changes : Commit)
    (hmem : cache.mem = k.cache.mem) : Fresh k (k.announce cache changes).1 where
  kept :=
    { held := apply_held k.main _
      links := by
        intro id
        unfold announce
        simp only [OrderedMap.get_mapValues, Option.map_map]
        rfl
      history := ⟨[_], rfl⟩ }
  bytes := by
    intro e anchor _
    show readBytes cache.mem e = _
    rw [hmem]
  echo := by
    intro id link n index _ _ hlength hindex slot
    have hindex : (k.history ++ [cache.index])[n]? = some index := hindex
    rw [List.getElem?_append_right hlength] at hindex
    rw [List.mem_singleton.mp (List.mem_of_getElem? hindex)]
    rfl

theorem flush_fresh {settle : VfsKernel -> List RetireId -> VfsKernel}
    {k : VfsKernel} {extra : Multiset Extent}
    (hsettle : forall k ids, Sound k extra -> Steady k (settle k ids))
    {changes : List (Slot × Option Entry)}
    (h : k.Sound (stagedExtents changes + extra)) (hnodup : (changes.map Prod.fst).Nodup) :
    Fresh k (k.flush settle changes) ∧ forall slot,
      (k.flush settle changes).cache.file slot = (commit k.cache changes).1.file slot := by
  have hmem : (commit k.cache changes).1.mem = k.cache.mem :=
    (commit_spec (c := k.cache) hnodup).mem
  unfold flush
  simp only
  split_ifs
  · exact ⟨Fresh.of_mem (Kept.of_eq rfl rfl rfl) rfl hmem, fun _ => rfl⟩
  · have hsettled := hsettle (k.announce (commit k.cache changes).1 (commit k.cache changes).2).1
      (k.announce (commit k.cache changes).1 (commit k.cache changes).2).2
      (announce_sound h hnodup)
    exact ⟨(announce_fresh k _ _ hmem).trans hsettled, hsettled.file⟩

theorem compact_steady {settle : VfsKernel -> List RetireId -> VfsKernel}
    {k : VfsKernel} {extra : Multiset Extent}
    (hsettle : forall k ids, Sound k extra -> Steady k (settle k ids))
    (h : k.Sound extra) : Steady k (k.compact settle) := by
  have hagree := (compact_spec h.owned k.threshold).agree
  unfold compact
  rcases hcompact : k.cache.compact k.threshold with ⟨cache, result⟩
  rw [hcompact] at hagree
  have hcache : Fresh k { k with cache := cache } :=
    Fresh.of_agree h (Kept.of_eq rfl rfl rfl) rfl base_owned hagree
  cases result with
  | none => exact { toFresh := hcache, file := compact_none_file h.owned h.published hcompact }
  | some moves =>
      rcases (compacted_sound h hcompact).2 moves rfl with ⟨hsound, hnodup⟩
      rcases flush_fresh hsettle hsound hnodup with ⟨hfresh, hfile⟩
      exact
        { toFresh := hfresh.after hcache rfl
          file := fun slot => (hfile slot).trans
            (compact_some_file h.owned h.published hcompact slot) }

theorem settleWithin_steady {extra : Multiset Extent} (fuel : Nat) :
    forall (k : VfsKernel) (ids : List RetireId), k.Sound extra ->
      Steady k (settleWithin fuel k ids) := by
  induction fuel with
  | zero => exact fun k ids _ => freeSettled_steady k ids
  | succ fuel ih =>
      intro k ids h
      have hfreed := freeSettled_steady k ids
      unfold settleWithin
      simp only
      split_ifs
      · exact hfreed.trans (compact_steady ih (freeSettled_sound h ids))
      · exact hfreed

theorem settle_steady {k : VfsKernel} {extra : Multiset Extent} (h : k.Sound extra)
    (ids : List RetireId) : Steady k (k.settle ids) := settleWithin_steady _ k ids h

theorem flushNow_fresh {k : VfsKernel} {extra : Multiset Extent}
    {changes : List (Slot × Option Entry)}
    (h : k.Sound (stagedExtents changes + extra)) (hnodup : (changes.map Prod.fst).Nodup) :
    Fresh k (k.flushNow changes) ∧ forall slot,
      (k.flushNow changes).cache.file slot = (commit k.cache changes).1.file slot :=
  flush_fresh (fun _ ids hk => settle_steady hk ids) h hnodup

/-!
# Publications
-/

theorem stageInto_fresh (k : VfsKernel) (epoch : EpochId)
    (changes : List (Slot × Option Entry)) : Fresh k (k.stageInto epoch changes) :=
  Fresh.of_mem (Kept.of_eq rfl rfl rfl) rfl (stageAll_index _ _).2

theorem publish_fresh {k : VfsKernel} {extra : Multiset Extent}
    {changes : List (Slot × Option Entry)} (h : k.Sound (stagedExtents changes + extra)) :
    Fresh k (k.publish changes) := by
  have hstaged : Fresh k { k with cache := (stageAll (k.cache, OrderedMap.empty) changes).1 } :=
    Fresh.of_mem (Kept.of_eq rfl rfl rfl) rfl (stageAll_index _ _).2
  exact (flushNow_fresh h.staged (entries_nodup _)).1.after hstaged rfl

/-- What a task may not write: everything but its own extents. -/
theorem task_live {k : VfsKernel} {extra : Multiset Extent} (h : k.Sound extra) {id : TaskId}
    {t : Task} (hget : k.tasks.get id = some t) :
    exists live, k.cache.registry.Owned (live + t.extents) ∧
      forall e, e ∈ k.base -> e ∈ live := by
  rcases tasks_split hget with ⟨rest, htotal, _, _⟩
  have hold := h.owned
  rw [owners_eq, htotal] at hold
  have hsplit : k.base + k.epochs.total Changes.extents + (rest + t.extents) + extra =
      k.base + (k.epochs.total Changes.extents + rest + extra) + t.extents := by abel
  rw [hsplit] at hold
  exact ⟨_, hold, fun e he => Multiset.mem_add.mpr (Or.inl he)⟩

/-- A task goes on or ends: the cache it leaves is the only thing that changes
besides the epochs and the tasks. -/
theorem task_fresh {k : VfsKernel} {extra live held : Multiset Extent} (h : k.Sound extra)
    {cache : FilesystemCache} {epochs : OrderedMap EpochId Changes}
    {tasks : OrderedMap TaskId Task} (hlive : forall e, e ∈ k.base -> e ∈ live)
    (hagree : Agree (live + held) k.cache.mem cache.mem) :
    Fresh k { k with cache := cache, epochs := epochs, tasks := tasks } :=
  Fresh.of_agree h (Kept.of_eq rfl rfl rfl) rfl
    (fun e he => Multiset.mem_add.mpr (Or.inl (hlive e he))) hagree

theorem finishStore_fresh {fileExt : Key -> Ext} {k : VfsKernel} {extra : Multiset Extent}
    (h : k.Sound extra) {id : TaskId} {t : Store} {answer : Answer}
    {result : FilesystemCache × Progress Store}
    (hget : k.tasks.get id = some (Task.store t))
    (hresume : t.resume fileExt k.cache answer = some result) :
    Fresh k (k.finishStore id t result) := by
  rcases task_live h hget with ⟨live, howned, hlive⟩
  have hspec : forall live, k.cache.registry.Owned (live + (Task.store t).extents) ->
      ProgressSpec k.cache live t.placed Store.extents result :=
    fun live hl => Store.resume_spec hl hresume
  have hagree := (hspec live howned).agree
  have hindex := (hspec live howned).index
  rcases result with ⟨cache, progress⟩
  cases progress with
  | suspended next => exact task_fresh h hlive hagree
  | failed => exact task_fresh h hlive hagree
  | done changes =>
      have hended : Fresh k { k with cache := cache, tasks := k.tasks.delete id } :=
        task_fresh h hlive hagree
      have hend := h.endTask (stagedExtents changes) hget hindex
        (fun live hl => (hspec live hl).owned)
      unfold finishStore
      simp only
      cases t.target with
      | shared epoch => exact (stageInto_fresh _ epoch changes).after hended rfl
      | own removed =>
          refine Fresh.after (@publish_fresh _ extra _ ?_) hended rfl
          rw [stagedExtents_append, unstaged_extents, zero_add]
          exact hend

theorem finishTree_fresh {k : VfsKernel} {extra : Multiset Extent} (h : k.Sound extra)
    {id : TaskId} {t : Tree} {result : FilesystemCache × Progress Tree}
    (hget : k.tasks.get id = some (Task.tree t))
    (hresume : t.resume k.main.files k.cache = some result) :
    Fresh k (k.finishTree id result) := by
  rcases task_live h hget with ⟨live, howned, hlive⟩
  have hspec : forall live, k.cache.registry.Owned (live + (Task.tree t).extents) ->
      ProgressSpec k.cache live (copiedExtents t.copies) Tree.extents result :=
    fun live hl => Tree.resume_spec hl hresume
  have hagree := (hspec live howned).agree
  have hindex := (hspec live howned).index
  rcases result with ⟨cache, progress⟩
  cases progress with
  | suspended next => exact task_fresh h hlive hagree
  | failed => exact task_fresh h hlive hagree
  | done changes =>
      have hended : Fresh k { k with cache := cache, tasks := k.tasks.delete id } :=
        task_fresh h hlive hagree
      have hend := h.endTask (stagedExtents changes) hget hindex
        (fun live hl => (hspec live hl).owned)
      exact (publish_fresh hend).after hended rfl

theorem startTree_fresh {k : VfsKernel} {extra : Multiset Extent} (h : k.Sound extra)
    {id : TaskId} (place : PlaceConfig) (moves : List (EntryKey × EntryKey))
    (hget : k.tasks.get id = none) : Fresh k (k.startTree id place moves) := by
  have hspec : ProgressSpec k.cache (k.owners + extra) (copiedExtents []) Tree.extents
      (Tree.advance place k.main.files k.cache [] moves) :=
    advance_spec place k.main.files [] moves (by
      have hnone : copiedExtents [] = 0 := rfl
      rw [hnone, add_zero]
      exact h.owned)
  unfold startTree
  generalize Tree.advance place k.main.files k.cache [] moves = result at *
  have hagree := hspec.agree
  have hindex := hspec.index
  rcases result with ⟨cache, progress⟩
  cases progress with
  | suspended next => exact task_fresh h base_owned hagree
  | failed => exact task_fresh h base_owned hagree
  | done changes =>
      have hended : Fresh k { k with cache := cache, tasks := k.tasks.delete id } :=
        task_fresh h base_owned hagree
      refine Fresh.after (@publish_fresh _ extra _ (h.step k.epochs _ hindex ?_)) hended rfl
      have howned := hspec.owned
      rw [owners_eq] at howned
      rw [delete_absent hget, add_comm _ extra, ← add_assoc]
      exact howned

theorem publication_fresh {fileExt : Key -> Ext} {k k' : VfsKernel} (h : k.Sound 0)
    (hstep : Publication fileExt k k') : Fresh k k' := by
  cases hstep with
  | openEpoch epoch hget => exact Fresh.of_mem (Kept.of_eq rfl rfl rfl) rfl rfl
  | unstage epoch place keys hhas => exact stageInto_fresh k epoch _
  | flushEpoch epoch changes hget hquiet =>
      have hclosed : Fresh k { k with epochs := k.epochs.delete epoch } :=
        Fresh.of_mem (Kept.of_eq rfl rfl rfl) rfl rfl
      exact (flushNow_fresh (h.closeEpoch hget) (entries_nodup changes)).1.after hclosed rfl
  | unpublishVirtual place keys =>
      refine @publish_fresh _ 0 _ ?_
      rw [unstaged_extents, zero_add]
      exact h
  | startStore id target place key input hget hepoch =>
      have hagree := (Store.start_spec h.owned fileExt target place key input).2.2
      exact Fresh.of_agree h (Kept.of_eq rfl rfl rfl) rfl base_owned hagree
  | filled id t ok data result hget hfilled =>
      rcases task_live h hget with ⟨live, howned, hlive⟩
      exact task_fresh h hlive (Store.filled_spec howned hfilled).2.2
  | resumeStore id t answer result hget hresume => exact finishStore_fresh h hget hresume
  | startTree id place moves hget => exact startTree_fresh h place moves hget
  | unfilled id t data result hget hunfilled =>
      rcases task_live h hget with ⟨live, howned, hlive⟩
      exact task_fresh h hlive (Tree.unfilled_spec howned hunfilled).2.2
  | resumeTree id t result hget hresume => exact finishTree_fresh h hget hresume

/-!
# Steps
-/

/-- No link is ahead of where it is in {lit}`links`, and new links are numbered on. -/
def Behind (k : VfsKernel) (links : OrderedMap LinkId Link) : Prop :=
  forall id link', links.get id = some link' -> id ≤ k.nextLinkId ->
    exists link, k.links.get id = some link ∧ link.since = link'.since ∧
      link.applied ≤ link'.applied

theorem Behind.refl (k : VfsKernel) : Behind k k.links :=
  fun _ link' hget _ => ⟨link', hget, rfl, le_rfl⟩

theorem setLink_behind {k : VfsKernel} {id : LinkId} {link link' : Link}
    (hget : k.links.get id = some link) (hsince : link.since = link'.since)
    (happlied : link.applied ≤ link'.applied) : Behind k (k.links.set id link') := by
  intro other found hfound _
  rw [OrderedMap.get_set] at hfound
  by_cases heq : other = id
  · rw [if_pos heq] at hfound
    rw [heq, ← Option.some.inj hfound]
    exact ⟨link, hget, hsince, happlied⟩
  · rw [if_neg heq] at hfound
    exact ⟨found, hfound, rfl, le_rfl⟩

theorem newLink_behind (k : VfsKernel) : Behind k k.newLink.links := by
  intro id link' hget hle
  have hget : (k.links.set (k.nextLinkId + 1) _).get id = some link' := hget
  rw [OrderedMap.get_set_ne _ _ (Nat.ne_of_lt (Nat.lt_succ_of_le hle))] at hget
  exact ⟨link', hget, rfl, le_rfl⟩

theorem deleteLink_behind (k : VfsKernel) (id : LinkId) : Behind k (k.links.delete id) :=
  fun _ found hfound _ => ⟨found, (get_delete_ne_of_some hfound).2, rfl, le_rfl⟩

/-- A step first changes consumers or links, if it does, and neither memory nor log;
from there on whatever is anchored stays. -/
theorem noisyStep_fresh {fileExt : Key -> Ext} {k k' : VfsKernel} (h : k.Sound 0)
    (hstep : NoisyStep fileExt k k') :
    exists m, m.cache.mem = k.cache.mem ∧ m.history = k.history ∧ Behind k m.links ∧
      Fresh m k' := by
  have hsame : forall m : VfsKernel, m.cache.mem = k.cache.mem -> m.history = k.history ->
      Behind k m.links -> exists m', m'.cache.mem = k.cache.mem ∧
        m'.history = k.history ∧ Behind k m'.links ∧ Fresh m' m :=
    fun m hmem hhistory hbehind => ⟨m, hmem, hhistory, hbehind, Fresh.refl m⟩
  have hsettle : forall (m : VfsKernel) ids, m.Sound 0 -> m.cache.mem = k.cache.mem ->
      m.history = k.history -> Behind k m.links ->
      exists m', m'.cache.mem = k.cache.mem ∧ m'.history = k.history ∧
        Behind k m'.links ∧ Fresh m' (m.settle ids) :=
    fun m ids hm hmem hhistory hbehind =>
      ⟨m, hmem, hhistory, hbehind, (settle_steady hm ids).toFresh⟩
  cases hstep with
  | step hstep =>
      cases hstep with
      | publication hstep => exact ⟨k, rfl, rfl, Behind.refl k, publication_fresh h hstep⟩
      | link => exact hsame _ rfl rfl (newLink_behind k)
      | attach id link snapshot hget hworker =>
          exact hsame _ rfl rfl (setLink_behind hget rfl le_rfl)
      | deliverUpdate id link t update rest hget hworker hdown =>
          exact hsame _ rfl rfl (setLink_behind hget rfl (Nat.le_succ _))
      | deliverMessage id link message rest hget hup =>
          unfold deliverMessage
          rw [handle_eq]
          exact hsettle _ _ (deliverMessage_handled h hget hup) rfl rfl
            (setLink_behind hget rfl le_rfl)
      | acquireMain consumer slot hnew => exact hsame _ rfl rfl (Behind.refl k)
      | releaseMain consumer =>
          rcases releaseMain_cases k consumer with ⟨_, heq⟩ | ⟨id, ids, hid, heq⟩
          · rw [heq]
            exact hsame _ rfl rfl (Behind.refl k)
          · rw [heq]
            exact hsettle _ ids (releaseMain_handled h hid) rfl rfl (Behind.refl k)
      | acquireWorker id link t consumer slot hget hworker hnew =>
          exact hsame _ rfl rfl (setLink_behind hget rfl le_rfl)
      | releaseWorker id link t consumer hget hworker =>
          exact hsame _ rfl rfl (setLink_behind hget rfl le_rfl)
      | exit id link hget => exact hsame _ rfl rfl (setLink_behind hget rfl le_rfl)
      | close id link hget hworker =>
          exact hsettle _ _ (closeLink_handled h id) rfl rfl (deleteLink_behind k id)
  | repeated id link message hget hmem =>
      rw [handle_eq]
      exact hsettle _ _ (repeated_handled h hget hmem) rfl rfl (Behind.refl k)
  | stale id message hget =>
      rw [handle_eq]
      exact hsettle _ _ (stale_handled h message hget) rfl rfl (Behind.refl k)

/-- What a consumer holds after a step reads as it did before the step. -/
theorem noisyStep_reads {fileExt : Key -> Ext} {k k' : VfsKernel} (h : k.Sound 0)
    (hstep : NoisyStep fileExt k k') {who : Holder} {consumer : ConsumerId} {file : File}
    {e : Extent} (he : file.content.extent? = some e) (hreads : k'.Reads who consumer file) :
    readBytes k'.cache.mem e = readBytes k.cache.mem e := by
  rcases noisyStep_fresh h hstep with ⟨m, hmem, _, _, hfresh⟩
  rw [← hmem]
  exact hfresh.bytes (pinAnchor who consumer file he) (hfresh.kept.reads.mp hreads)

end VfsKernel
end SharedMemoryFs
