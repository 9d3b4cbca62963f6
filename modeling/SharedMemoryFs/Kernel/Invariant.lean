import SharedMemoryFs.Kernel.Flush

/-!
# The invariant of the linked kernel

Four parts are tied together.  The log says which index each update led to.
Every link's thread stands at one point of the log, with the later updates still
in its queue; whatever those updates retire waits for its ACK.  Every bound pin
has a record that its thread holds or is about to hold.  And the allocated bytes
of the pool are covered exactly by the extents somebody owns.
-/

namespace SharedMemoryFs

open Foundation

def Update.retireIds (u : Update) : List RetireId := u.retired.map Prod.snd

def retireIds (updates : List Update) : List RetireId := updates.flatMap Update.retireIds

def UpMessage.ackId : UpMessage -> Option UpdateId
  | UpMessage.ack updateId _ => some updateId
  | UpMessage.release _ => none

/-- The log of updates, and the records the pending ACKs guard. -/
structure LogSound (history : List Index) (updates : List Update) (r : Retirement)
    (index : Index) : Prop where
  length : history.length = updates.length + 1
  last : exists final, history[updates.length]? = some final ∧
    forall slot, final.get slot = index.get slot
  count : r.nextUpdateId = updates.length
  step : forall {n u}, updates[n]? = some u -> u.updateId = n + 1 ∧
    exists before after, history[n]? = some before ∧ history[n + 1]? = some after ∧
      Delta before u after
  nodup : (retireIds updates).Nodup
  ids : forall {id}, id ∈ retireIds updates -> id ≤ r.nextRetireId
  listed : forall {n u slot id ack}, updates[n]? = some u -> (slot, id) ∈ u.retired ->
    r.acks.get (n + 1) = some ack -> exists before entry,
      history[n]? = some before ∧ before.get slot = some entry ∧ r.Has id entry (n + 1)

/-- A pinned file that was retired has a record kept for its thread. -/
def Bound (r : Retirement) (t : Thread) (kept : RetireId -> UpdateId -> Prop) : Prop :=
  forall file id, t.pins.retired.get file = some id -> exists entry updateId,
    entry.view = file.content ∧ r.Has id entry updateId ∧ kept id updateId

/-- An ACK that reports {lit}`id` is on its way. -/
def Reported (up : List UpMessage) (id : RetireId) (updateId : UpdateId) : Prop :=
  exists retained, UpMessage.ack updateId retained ∈ up ∧ id ∈ retained

structure AttachedSound (history : List Index) (updates : List Update) (r : Retirement)
    (id : LinkId) (link : Link) (t : Thread) : Prop where
  sound : t.Sound
  projects : exists index, history[link.since + link.applied]? = some index ∧
    t.Projects index
  bound : Bound r t (fun i u => r.HeldBy i (Holder.link id) ∨
    (r.Awaits (Holder.link id) u ∧ Reported link.up i u))
  log : t.bound.Sublist (retireIds (updates.take (link.since + link.applied)))
  releases : forall {ids i}, UpMessage.release ids ∈ link.up ++ link.processed ->
    i ∈ ids -> i ∈ t.released

structure HandedSound (history : List Index) (link : Link) (snapshot : Snapshot) :
    Prop where
  applied : link.applied = 0
  index : exists index, history[link.since]? = some index ∧
    forall slot, index.get slot = snapshot.entries.get slot
  complete : snapshot.Complete
  up : link.up = []
  processed : link.processed = []

def WorkerSound (history : List Index) (updates : List Update) (r : Retirement)
    (id : LinkId) (link : Link) : Prop :=
  match link.worker with
  | Worker.handed snapshot => HandedSound history link snapshot
  | Worker.attached t => AttachedSound history updates r id link t
  | Worker.exited => True

structure LinkSound (history : List Index) (updates : List Update) (r : Retirement)
    (id : LinkId) (link : Link) : Prop where
  down : link.down = updates.drop (link.since + link.applied)
  le : link.since + link.applied ≤ updates.length
  awaits : forall {n u}, updates[n]? = some u -> link.since + link.applied ≤ n ->
    u.retired ≠ [] -> r.Awaits (Holder.link id) (n + 1)
  acks : (link.up.filterMap UpMessage.ackId).Pairwise (· < ·)
  acksLe : forall {u}, u ∈ link.up.filterMap UpMessage.ackId ->
    u ≤ link.since + link.applied
  acked : forall {u retained}, UpMessage.ack u retained ∈ link.processed ->
    u ≤ link.since + link.applied ∧ ¬ r.Awaits (Holder.link id) u
  worker : WorkerSound history updates r id link

structure MainSound (updates : List Update) (r : Retirement) (main : Thread)
    (index : Index) : Prop where
  sound : main.Sound
  projects : main.Projects index
  bound : Bound r main (fun i _ => r.HeldBy i Holder.main)
  log : main.bound.Sublist (retireIds updates)

/-- Everything that owns bytes of the pool. -/
def VfsKernel.owners (k : VfsKernel) : Multiset Extent :=
  k.cache.index.total Entry.extents + k.retirement.extents +
    k.epochs.total Changes.extents + k.tasks.total Task.extents

/-- The invariant, with {lit}`extra` extents in the hands of the running step. -/
structure VfsKernel.Sound (k : VfsKernel) (extra : Multiset Extent) : Prop where
  owned : k.cache.registry.Owned (k.owners + extra)
  bounded : k.retirement.Bounded
  log : LogSound k.history k.updates k.retirement k.cache.index
  main : MainSound k.updates k.retirement k.main k.cache.index
  links : forall {id link}, k.links.get id = some link ->
    LinkSound k.history k.updates k.retirement id link
  pending : forall {id updateId}, k.retirement.Awaits (Holder.link id) updateId ->
    exists link, k.links.get id = some link
  fresh : forall {id link}, k.links.get id = some link -> id ≤ k.nextLinkId

/-!
# Retirement moving on

The parts that mention the retirement survive any change of it that keeps what
their holder is owed.
-/

theorem LogSound.advance {history : List Index} {updates : List Update}
    {r r' : Retirement} {index : Index} (h : LogSound history updates r index)
    (hadvance : r.Advance r') : LogSound history updates r' index where
  length := h.length
  last := h.last
  count := hadvance.nextUpdateId.trans h.count
  step := h.step
  nodup := h.nodup
  ids := by
    rw [hadvance.nextRetireId]
    exact h.ids
  listed := by
    intro n u slot id ack hu hmem hack
    rcases hadvance.acks hack with ⟨old, hold⟩
    rcases h.listed hu hmem hold with ⟨before, entry, hbefore, hentry, hhas⟩
    exact ⟨before, entry, hbefore, hentry, hadvance.listed hhas hack⟩

theorem Bound.keeps {r r' : Retirement} {t : Thread} {holder : Holder}
    {kept kept' : RetireId -> UpdateId -> Prop} (h : Bound r t kept)
    (hkeeps : r.Keeps holder r')
    (hkept : forall id updateId, kept id updateId ->
      (r.HeldBy id holder ∨ r.Awaits holder updateId) ∧ kept' id updateId) :
    Bound r' t kept' := by
  intro file id hid
  rcases h file id hid with ⟨entry, updateId, hview, hhas, hk⟩
  rcases hkept id updateId hk with ⟨hwait, hk'⟩
  exact ⟨entry, updateId, hview, hkeeps.has hhas hwait, hk'⟩

theorem AttachedSound.advance {history : List Index} {updates : List Update}
    {r r' : Retirement} {id : LinkId} {link : Link} {t : Thread}
    (h : AttachedSound history updates r id link t)
    (hkeeps : r.Keeps (Holder.link id) r') : AttachedSound history updates r' id link t where
  sound := h.sound
  projects := h.projects
  bound := by
    refine h.bound.keeps hkeeps ?_
    rintro i u (hheld | ⟨hawaits, hreported⟩)
    · exact ⟨Or.inl hheld, Or.inl (hkeeps.held hheld)⟩
    · exact ⟨Or.inr hawaits, Or.inr ⟨hkeeps.awaits hawaits, hreported⟩⟩
  log := h.log
  releases := h.releases

theorem WorkerSound.advance {history : List Index} {updates : List Update}
    {r r' : Retirement} {id : LinkId} {link : Link}
    (h : WorkerSound history updates r id link)
    (hkeeps : r.Keeps (Holder.link id) r') : WorkerSound history updates r' id link := by
  unfold WorkerSound at *
  cases hworker : link.worker with
  | handed snapshot =>
      rw [hworker] at h
      exact h
  | attached t =>
      rw [hworker] at h
      exact AttachedSound.advance h hkeeps
  | exited => trivial

theorem LinkSound.advance {history : List Index} {updates : List Update}
    {r r' : Retirement} {id : LinkId} {link : Link}
    (h : LinkSound history updates r id link) (hkeeps : r.Keeps (Holder.link id) r')
    (hadvance : r.Advance r') : LinkSound history updates r' id link where
  down := h.down
  le := h.le
  awaits := fun hu hle hne => hkeeps.awaits (h.awaits hu hle hne)
  acks := h.acks
  acksLe := h.acksLe
  acked := fun hmem => ⟨(h.acked hmem).1, fun hwait => (h.acked hmem).2 (hadvance.awaits hwait)⟩
  worker := h.worker.advance hkeeps

theorem MainSound.advance {updates : List Update} {r r' : Retirement} {main : Thread}
    {index : Index} (h : MainSound updates r main index)
    (hkeeps : r.Keeps Holder.main r') : MainSound updates r' main index where
  sound := h.sound
  projects := h.projects
  bound := h.bound.keeps hkeeps (fun _ _ hheld => ⟨Or.inl hheld, hkeeps.held hheld⟩)
  log := h.log

/-- A change of the retirement that takes nothing from anyone. -/
theorem VfsKernel.Sound.advance {k : VfsKernel} {extra : Multiset Extent}
    (h : k.Sound extra) {r : Retirement} {cache : FilesystemCache}
    (hadvance : k.retirement.Advance r) (hkeeps : forall holder, k.retirement.Keeps holder r)
    (hindex : cache.index = k.cache.index)
    {extra' : Multiset Extent}
    (howned : cache.registry.Owned
      (({ k with retirement := r, cache := cache } : VfsKernel).owners + extra')) :
    ({ k with retirement := r, cache := cache } : VfsKernel).Sound extra' where
  owned := howned
  bounded := hadvance.bounded h.bounded
  log := by
    show LogSound k.history k.updates r cache.index
    rw [hindex]
    exact h.log.advance hadvance
  main := by
    show MainSound k.updates r k.main cache.index
    rw [hindex]
    exact h.main.advance (hkeeps Holder.main)
  links := fun hget => (h.links hget).advance (hkeeps _) hadvance
  pending := fun hwait => h.pending (hadvance.awaits hwait)
  fresh := h.fresh

/-- Only the cache, the epochs or the tasks change, and the index stays. -/
theorem VfsKernel.Sound.publishing {k : VfsKernel} {extra extra' : Multiset Extent}
    (h : k.Sound extra) {cache : FilesystemCache} {epochs : OrderedMap EpochId Changes}
    {tasks : OrderedMap TaskId Task} (hindex : cache.index = k.cache.index)
    (howned : cache.registry.Owned (cache.index.total Entry.extents +
      k.retirement.extents + epochs.total Changes.extents +
      tasks.total Task.extents + extra')) :
    ({ k with cache := cache, epochs := epochs, tasks := tasks } : VfsKernel).Sound
      extra' where
  owned := howned
  bounded := h.bounded
  log := by
    show LogSound k.history k.updates k.retirement cache.index
    rw [hindex]
    exact h.log
  main := by
    show MainSound k.updates k.retirement k.main cache.index
    rw [hindex]
    exact h.main
  links := h.links
  pending := h.pending
  fresh := h.fresh

/-!
# Settling
-/

theorem freeSettled_sound {k : VfsKernel} {extra : Multiset Extent} (h : k.Sound extra)
    (ids : List RetireId) : (k.freeSettled ids).1.Sound extra := by
  have hsweep := Retirement.sweep_spec k.retirement ids
  refine h.advance hsweep.advance hsweep.keeps (freeAll_index _ _) ?_
  refine owned_freeAll ?_
  have howned := h.owned
  unfold VfsKernel.owners at howned ⊢
  rw [hsweep.extents] at howned
  simp only [freeAll_index]
  have hsplit : k.cache.index.total Entry.extents +
        ((k.retirement.sweep ids).1.extents +
          ((k.retirement.sweep ids).2.map Entry.extents).sum) +
        k.epochs.total Changes.extents + k.tasks.total Task.extents + extra =
      k.cache.index.total Entry.extents + (k.retirement.sweep ids).1.extents +
        k.epochs.total Changes.extents + k.tasks.total Task.extents + extra +
        listExtents (k.retirement.sweep ids).2 := by
    unfold listExtents
    abel
  rw [hsplit] at howned
  exact howned

/-!
# Announcing
-/

theorem Delta.congr {index₁ index₂ index' : Index} {u : Update}
    (h : Delta index₁ u index') (heq : forall slot, index₂.get slot = index₁.get slot) :
    Delta index₂ u index' where
  entries := h.entries
  nodup := h.nodup
  removals := h.removals
  frame := fun hentry hremoval => (h.frame hentry hremoval).trans (heq _).symm
  retiring := by
    intro slot id hin
    rcases h.retiring hin with ⟨htouched, entry, e, hget, he⟩
    exact ⟨htouched, entry, e, (heq slot).trans hget, he⟩
  complete := fun htouched hget he => h.complete htouched ((heq _).symm.trans hget) he
  nodupRetired := h.nodupRetired
  segments := h.segments

theorem getElem?_snoc_left {xs : List alpha} {n : Nat} {x y : alpha}
    (h : xs[n]? = some x) : (xs ++ [y])[n]? = some x := by
  rw [List.getElem?_append_left (List.getElem?_eq_some_iff.mp h).1]
  exact h

theorem getElem?_snoc {xs : List alpha} {n : Nat} {x y : alpha}
    (h : (xs ++ [y])[n]? = some x) :
    (n < xs.length ∧ xs[n]? = some x) ∨ (n = xs.length ∧ x = y) := by
  rw [List.getElem?_append] at h
  by_cases hlt : n < xs.length
  · rw [if_pos hlt] at h
    exact Or.inl ⟨hlt, h⟩
  · rw [if_neg hlt] at h
    have hzero : n - xs.length = 0 := by
      by_contra hne
      have hlen := (List.getElem?_eq_some_iff.mp h).1
      simp only [List.length_singleton] at hlen
      omega
    rw [hzero] at h
    exact Or.inr ⟨by omega, (Option.some.inj h).symm⟩

theorem retireIds_append (updates : List Update) (u : Update) :
    retireIds (updates ++ [u]) = retireIds updates ++ u.retireIds := by
  simp [retireIds]

/-- What one announced update is, seen from the kernel it was made in. -/
structure Announced (k : VfsKernel) (cache : FilesystemCache) (changes : Commit)
    (u : Update) (retained : List RetireId) (r : Retirement) (ids : List RetireId) :
    Prop where
  updateId : u.updateId = k.retirement.nextUpdateId + 1
  delta : Delta k.cache.index u cache.index
  olds : forall {slot entry}, (slot, entry) ∈ changes.olds ->
    k.cache.index.get slot = some entry
  spec : Retirement.AnnounceSpec k.retirement k.links.keys.toFinset changes.olds
    u.retired retained r ids

theorem LogSound.announce {k : VfsKernel} {extra : Multiset Extent}
    {cache : FilesystemCache} {changes : Commit} {u : Update} {retained ids : List RetireId}
    {r : Retirement} (h : k.Sound extra) (hu : Announced k cache changes u retained r ids) :
    LogSound (k.history ++ [cache.index]) (k.updates ++ [u]) r cache.index := by
  have hlog := h.log
  have hspec := hu.spec
  rcases hlog.last with ⟨final, hfinal, hsame⟩
  have hright : (k.history ++ [cache.index])[k.updates.length + 1]? = some cache.index := by
    rw [← hlog.length, List.getElem?_concat_length]
  refine
    { length := by simp [hlog.length]
      last := ⟨cache.index, by simpa using hright, fun _ => rfl⟩
      count := by rw [hspec.nextUpdateId, hlog.count, List.length_append, List.length_singleton]
      step := ?_
      nodup := ?_
      ids := ?_
      listed := ?_ }
  · intro n u' hn
    rcases getElem?_snoc hn with ⟨_, hold⟩ | ⟨heq, hnew⟩
    · rcases hlog.step hold with ⟨hid, before, after, hbefore, hafter, hdelta⟩
      exact ⟨hid, before, after, getElem?_snoc_left hbefore, getElem?_snoc_left hafter, hdelta⟩
    · subst heq hnew
      exact ⟨by rw [hu.updateId, hlog.count], final, cache.index, getElem?_snoc_left hfinal, hright,
        hu.delta.congr hsame⟩
  · rw [retireIds_append]
    refine List.nodup_append.mpr ⟨hlog.nodup, hspec.nodup, ?_⟩
    intro a ha b hb heq
    rcases List.mem_map.mp hb with ⟨⟨slot, id⟩, hin, hid⟩
    have hid : id = b := hid
    have hlt := (hspec.fresh hin).1
    rw [hid, ← heq] at hlt
    exact absurd (hlog.ids ha) (Nat.not_le_of_lt hlt)
  · intro id hid
    rw [retireIds_append] at hid
    rcases List.mem_append.mp hid with hold | hnew
    · exact (hlog.ids hold).trans hspec.nextRetireId
    · rcases List.mem_map.mp hnew with ⟨⟨slot, i⟩, hin, hi⟩
      have hi : i = id := hi
      rw [← hi]
      exact (hspec.fresh hin).2
  · intro n u' slot id ack hn hin hack
    rcases getElem?_snoc hn with ⟨hlt, hold⟩ | ⟨heq, hnew⟩
    · have hne : n + 1 ≠ k.retirement.nextUpdateId + 1 := by
        rw [hlog.count]
        exact Nat.ne_of_lt (Nat.succ_lt_succ hlt)
      rcases hspec.acks hack with ⟨old, hack⟩ | heq
      · rcases hlog.listed hold hin hack with ⟨before, entry, hbefore, hentry, hhas⟩
        exact ⟨before, entry, getElem?_snoc_left hbefore, hentry, hspec.has hhas⟩
      · exact absurd heq hne
    · subst heq hnew
      rcases hspec.added hin with ⟨entry, hentry, hhas⟩
      rw [hlog.count] at hhas
      exact ⟨final, entry, getElem?_snoc_left hfinal, (hsame slot).trans (hu.olds hentry), hhas⟩

theorem MainSound.announce {k : VfsKernel} {extra : Multiset Extent}
    {cache : FilesystemCache} {changes : Commit} {u : Update} {ids : List RetireId}
    {r : Retirement} (h : k.Sound extra)
    (hu : Announced k cache changes u (k.main.apply u).2 r ids) :
    MainSound (k.updates ++ [u]) r (k.main.apply u).1 cache.index := by
  have hmain := h.main
  have happly := apply_spec hmain.sound hmain.projects hu.delta
  refine
    { sound := happly.sound
      projects := happly.projects
      bound := ?_
      log := ?_ }
  · intro file id hid
    rcases (happly.binds file id).mp hid with hold | ⟨slot, hin, hfile, hpinned⟩
    · rcases hmain.bound file id hold with ⟨entry, updateId, hview, hhas, hheld⟩
      exact ⟨entry, updateId, hview, hu.spec.has hhas,
        (hu.spec.keeps Holder.main).held hheld⟩
    · rcases hu.spec.added hin with ⟨entry, hentry, hhas⟩
      have hcontent := hmain.projects.files slot
      rw [hfile, hu.olds hentry] at hcontent
      refine ⟨entry, _, (Option.some.inj hcontent).symm, hhas, hu.spec.main ?_⟩
      rw [happly.pinned]
      refine List.mem_map.mpr ⟨(slot, id), List.mem_filter.mpr ⟨hin, ?_⟩, rfl⟩
      unfold pinnedAt
      rw [hfile]
      exact hpinned
  · rw [happly.bound, retireIds_append]
    refine hmain.log.append ?_
    rw [happly.pinned]
    exact List.filter_sublist.map Prod.snd

theorem LinkSound.announce {k : VfsKernel} {extra : Multiset Extent}
    {cache : FilesystemCache} {changes : Commit} {u : Update} {retained ids : List RetireId}
    {r : Retirement} {id : LinkId} {link : Link} (h : k.Sound extra)
    (hu : Announced k cache changes u retained r ids)
    (hget : k.links.get id = some link) :
    LinkSound (k.history ++ [cache.index]) (k.updates ++ [u]) r id (link.post u) := by
  have hlink := h.links hget
  have hcount := h.log.count
  have hkeeps := hu.spec.keeps (Holder.link id)
  refine
    { down := ?_
      le := ?_
      awaits := ?_
      acks := hlink.acks
      acksLe := hlink.acksLe
      acked := ?_
      worker := ?_ }
  · show link.down ++ [u] = (k.updates ++ [u]).drop (link.since + link.applied)
    rw [List.drop_append_of_le_length hlink.le, ← hlink.down]
  · show link.since + link.applied ≤ (k.updates ++ [u]).length
    exact hlink.le.trans (by simp)
  · intro n u' hn hle hne
    rcases getElem?_snoc hn with ⟨_, hold⟩ | ⟨hlast, hnew⟩
    · exact hkeeps.awaits (hlink.awaits hold hle hne)
    · refine hu.spec.awaits.mpr (Or.inr ⟨?_, hnew ▸ hne, id, ?_, rfl⟩)
      · rw [hcount, hlast]
      · exact List.mem_toFinset.mpr (OrderedMap.mem_keys_iff.mpr ⟨link, hget⟩)
  · intro u' retained hmem
    rcases hlink.acked hmem with ⟨hle, hnot⟩
    refine ⟨hle, ?_⟩
    intro hwait
    rcases hu.spec.awaits.mp hwait with hold | ⟨heq, _⟩
    · exact hnot hold
    · rw [heq, hcount] at hle
      exact absurd hle (Nat.not_le_of_lt (Nat.lt_succ_of_le hlink.le))
  · have hworker := hlink.worker
    unfold WorkerSound at *
    show match link.worker with
      | Worker.handed snapshot => HandedSound _ (link.post u) snapshot
      | Worker.attached t => AttachedSound _ _ r id (link.post u) t
      | Worker.exited => True
    cases hstate : link.worker with
    | handed snapshot =>
        rw [hstate] at hworker
        exact
          { applied := hworker.applied
            index := by
              rcases hworker.index with ⟨index, hindex, hsame⟩
              exact ⟨index, getElem?_snoc_left hindex, hsame⟩
            complete := hworker.complete
            up := hworker.up
            processed := hworker.processed }
    | attached t =>
        rw [hstate] at hworker
        have hadvance := AttachedSound.advance hworker hkeeps
        rcases hworker.projects with ⟨index, hindex, hprojects⟩
        exact
          { sound := hadvance.sound
            projects := ⟨index, getElem?_snoc_left hindex, hprojects⟩
            bound := hadvance.bound
            log := by
              show t.bound.Sublist
                (retireIds ((k.updates ++ [u]).take (link.since + link.applied)))
              rw [List.take_append_of_le_length hlink.le]
              exact hadvance.log
            releases := hadvance.releases }
    | exited => trivial

theorem announce_announced {k : VfsKernel} {extra : Multiset Extent} (h : k.Sound extra)
    {changes : List (Slot × Option Entry)} (hnodup : (changes.map Prod.fst).Nodup) :
    exists u, Announced k (commit k.cache changes).1 (commit k.cache changes).2 u
        (k.main.apply u).2
        (k.announce (commit k.cache changes).1 (commit k.cache changes).2).1.retirement
        (k.announce (commit k.cache changes).1 (commit k.cache changes).2).2 ∧
      (k.announce (commit k.cache changes).1 (commit k.cache changes).2).1 =
        { k with
          cache := (commit k.cache changes).1
          main := (k.main.apply u).1
          links := k.links.mapValues (fun _ link => link.post u)
          retirement :=
            (k.announce (commit k.cache changes).1 (commit k.cache changes).2).1.retirement
          history := k.history ++ [(commit k.cache changes).1.index]
          updates := k.updates ++ [u] } := by
  have hcommit := commit_spec (c := k.cache) hnodup
  generalize commit k.cache changes = committed at *
  let retire := Retirement.retire (k.retirement.nextUpdateId + 1)
    { k.retirement with nextUpdateId := k.retirement.nextUpdateId + 1 } committed.2.olds
  let u : Update :=
    { updateId := k.retirement.nextUpdateId + 1
      entries := committed.2.entries
      removals := committed.2.removals
      retired := retire.2
      newSegments := segmentsOf committed.2.entries }
  have hretire := Retirement.retire_spec
    (r := { k.retirement with nextUpdateId := k.retirement.nextUpdateId + 1 })
    (fun hget => (h.bounded.retired hget).1) (k.retirement.nextUpdateId + 1)
    committed.2.olds
  have hdelta : Delta k.cache.index u committed.1.index :=
    delta_commit hnodup hcommit hretire.slots
  have happly := apply_spec h.main.sound h.main.projects hdelta
  refine ⟨u, ?_, rfl⟩
  refine
    { updateId := rfl
      delta := hdelta
      olds := fun hin => (hcommit.olds.mp hin).2.1
      spec := ?_ }
  refine Retirement.announce_spec h.bounded k.links.keys.toFinset committed.2.olds ?_
  intro id hid
  have hid : id ∈ (k.main.apply u).2 := hid
  rw [happly.pinned] at hid
  exact (List.filter_sublist.map Prod.snd).subset hid

theorem announce_sound {k : VfsKernel} {extra : Multiset Extent}
    {changes : List (Slot × Option Entry)}
    (h : k.Sound (stagedExtents changes + extra)) (hnodup : (changes.map Prod.fst).Nodup) :
    (k.announce (commit k.cache changes).1 (commit k.cache changes).2).1.Sound extra := by
  rcases announce_announced h hnodup with ⟨u, hu, heq⟩
  have hcommit := commit_spec (c := k.cache) hnodup
  rw [heq]
  refine
    { owned := ?_
      bounded := hu.spec.bounded
      log := LogSound.announce h hu
      main := MainSound.announce h hu
      links := ?_
      pending := ?_
      fresh := ?_ }
  · have howned := hcommit.owned h.owned
    have hsplit : k.owners + (stagedExtents changes + extra) =
        (commit k.cache changes).1.index.total Entry.extents +
          (k.announce (commit k.cache changes).1
            (commit k.cache changes).2).1.retirement.extents +
          k.epochs.total Changes.extents + k.tasks.total Task.extents + extra := by
      rw [hu.spec.extents]
      unfold VfsKernel.owners
      have hextents := hcommit.extents
      unfold listExtents at hextents
      rw [List.map_map] at hextents
      have holds : ((commit k.cache changes).2.olds.map
          (fun old => old.2.extents)).sum =
          ((commit k.cache changes).2.olds.map (Entry.extents ∘ Prod.snd)).sum := rfl
      rw [holds]
      calc _ = (k.cache.index.total Entry.extents + stagedExtents changes) +
              (k.retirement.extents + k.epochs.total Changes.extents +
                k.tasks.total Task.extents + extra) := by abel
        _ = _ := by
            rw [← hextents]
            abel
    rw [hsplit] at howned
    exact howned
  · intro id link' hget
    have hget : (k.links.mapValues (fun _ link => link.post u)).get id = some link' := hget
    rw [OrderedMap.get_mapValues] at hget
    rcases Option.map_eq_some_iff.mp hget with ⟨link, hlink, hpost⟩
    rw [← hpost]
    exact LinkSound.announce h hu hlink
  · intro id updateId hwait
    show exists link, (k.links.mapValues (fun _ link => link.post u)).get id = some link
    have hlink : exists link, k.links.get id = some link := by
      rcases hu.spec.awaits.mp hwait with hold | ⟨_, _, l, hmem, heq⟩
      · exact h.pending hold
      · rw [Holder.link.inj heq]
        exact OrderedMap.mem_keys_iff.mp (List.mem_toFinset.mp hmem)
    rcases hlink with ⟨link, hlink⟩
    exact ⟨link.post u, by rw [OrderedMap.get_mapValues, hlink]; rfl⟩
  · intro id link' hget
    have hget : (k.links.mapValues (fun _ link => link.post u)).get id = some link' := hget
    rw [OrderedMap.get_mapValues] at hget
    rcases Option.map_eq_some_iff.mp hget with ⟨link, hlink, _⟩
    exact h.fresh hlink

/-!
# Flush, compaction and settle

{lit}`flush` and {lit}`settle` call each other; each keeps the invariant if the
other does, and the number of nested compactions carries the induction.
-/

theorem Thread.Projects.congr {t : Thread} {index index' : Index}
    (h : t.Projects index) (heq : forall slot, index'.get slot = index.get slot) :
    t.Projects index' where
  files := fun slot => (heq slot).symm ▸ h.files slot
  segments := fun hget he => h.segments ((heq _).symm.trans hget) he

/-- The cache changes, but not what its index says. -/
theorem VfsKernel.Sound.withCache {k : VfsKernel} {extra extra' : Multiset Extent}
    (h : k.Sound extra) {cache : FilesystemCache}
    (hindex : forall slot, cache.index.get slot = k.cache.index.get slot)
    (howned : cache.registry.Owned (({ k with cache := cache } : VfsKernel).owners + extra')) :
    ({ k with cache := cache } : VfsKernel).Sound extra' where
  owned := howned
  bounded := h.bounded
  log := by
    rcases h.log.last with ⟨final, hfinal, hsame⟩
    exact
      { length := h.log.length
        last := ⟨final, hfinal, fun slot => (hsame slot).trans (hindex slot).symm⟩
        count := h.log.count
        step := h.log.step
        nodup := h.log.nodup
        ids := h.log.ids
        listed := h.log.listed }
  main :=
    { sound := h.main.sound
      projects := h.main.projects.congr hindex
      bound := h.main.bound
      log := h.main.log }
  links := h.links
  pending := h.pending
  fresh := h.fresh

theorem flush_sound {settle : VfsKernel -> List RetireId -> VfsKernel}
    {k : VfsKernel} {extra : Multiset Extent}
    (hsettle : forall k ids, VfsKernel.Sound k extra -> (settle k ids).Sound extra)
    {changes : List (Slot × Option Entry)}
    (h : k.Sound (stagedExtents changes + extra)) (hnodup : (changes.map Prod.fst).Nodup) :
    (k.flush settle changes).Sound extra := by
  unfold VfsKernel.flush
  simp only
  by_cases hempty : ((commit k.cache changes).2.entries.isEmpty &&
      (commit k.cache changes).2.removals.isEmpty) = true
  · rw [if_pos hempty]
    rw [Bool.and_eq_true, List.isEmpty_iff, List.isEmpty_iff] at hempty
    have hcommit := commit_spec (c := k.cache) hnodup
    have holds : (commit k.cache changes).2.olds = [] := by
      refine List.eq_nil_iff_forall_not_mem.mpr ?_
      rintro ⟨slot, entry⟩ hin
      rcases hcommit.olds.mp hin with ⟨hchange, hget, _⟩
      rcases List.mem_map.mp hchange with ⟨⟨s, change⟩, hmem, hs⟩
      have hs : s = slot := hs
      subst hs
      cases change with
      | some new =>
          have hentry := hcommit.entries.mpr hmem
          rw [hempty.1] at hentry
          cases hentry
      | none =>
          have hremoval := hcommit.removals.mpr ⟨hmem, entry, hget⟩
          rw [hempty.2] at hremoval
          cases hremoval
    refine h.withCache (hcommit.unchanged hempty.1 hempty.2) ?_
    have howned := hcommit.owned h.owned
    have hextents := hcommit.extents
    rw [holds] at hextents
    have hsplit : k.owners + (stagedExtents changes + extra) =
        (commit k.cache changes).1.index.total Entry.extents + k.retirement.extents +
          k.epochs.total Changes.extents + k.tasks.total Task.extents + extra := by
      unfold VfsKernel.owners
      calc _ = (k.cache.index.total Entry.extents + stagedExtents changes) +
              (k.retirement.extents + k.epochs.total Changes.extents +
                k.tasks.total Task.extents + extra) := by abel
        _ = _ := by
            rw [← hextents]
            simp only [listExtents, List.map_nil, List.sum_nil]
            abel
    rw [hsplit] at howned
    exact howned
  · rw [if_neg hempty]
    exact hsettle _ _ (announce_sound h hnodup)

theorem stagedExtents_moves {mem' : Memory} {c : FilesystemCache}
    {moves : List FilesystemCache.Item}
    (h : forall move, move ∈ moves -> FilesystemCache.MoveSpec c mem' move) :
    stagedExtents (moves.map (fun move => (move.slot, some move.entry))) =
      FilesystemCache.movedExtents moves := by
  induction moves with
  | nil => rfl
  | cons move rest ih =>
      have hrest := ih (fun m hm => h m (List.mem_cons_of_mem _ hm))
      have hmove : move.entry.extents = {move.extent} := by
        unfold Entry.extents
        rw [(h move List.mem_cons_self).extent]
        rfl
      unfold stagedExtents FilesystemCache.movedExtents at *
      simp only [List.map_cons, List.sum_cons, hrest]
      show move.entry.extents + _ = _
      rw [hmove, ← Multiset.cons_coe, Multiset.singleton_add]

theorem mem_owners_index {k : VfsKernel} {slot : Slot} {entry : Entry} {e : Extent}
    (hget : k.cache.index.get slot = some entry) (he : entry.extent? = some e) :
    e ∈ k.owners := by
  unfold VfsKernel.owners
  refine Multiset.mem_add.mpr (Or.inl (Multiset.mem_add.mpr (Or.inl
    (Multiset.mem_add.mpr (Or.inl ?_)))))
  exact OrderedMap.mem_total_iff.mpr ⟨slot, entry, hget, Entry.mem_extents.mpr he⟩

/-- The cache a compaction leaves, before its moves are flushed. -/
theorem compacted_sound {k : VfsKernel} {extra : Multiset Extent} (h : k.Sound extra)
    {cache : FilesystemCache} {result : Option (List FilesystemCache.Item)}
    (hcompact : k.cache.compact k.threshold = (cache, result)) :
    (result = none -> ({ k with cache := cache } : VfsKernel).Sound extra) ∧
      forall moves, result = some moves ->
        ({ k with cache := cache } : VfsKernel).Sound
          (stagedExtents (moves.map (fun move => (move.slot, some move.entry))) + extra) ∧
        ((moves.map (fun move => (move.slot, some move.entry))).map Prod.fst).Nodup := by
  have hspec := FilesystemCache.compact_spec h.owned k.threshold
  rw [hcompact] at hspec
  have hindex : forall slot, cache.index.get slot = k.cache.index.get slot := by
    intro slot
    rw [show cache.index = k.cache.index from hspec.index]
  have howners : ({ k with cache := cache } : VfsKernel).owners = k.owners := by
    unfold VfsKernel.owners
    rw [show cache.index = k.cache.index from hspec.index]
  constructor
  · intro hnone
    refine h.withCache hindex ?_
    rw [howners]
    exact hspec.fails hnone
  · intro moves hsome
    rcases hspec.fits moves hsome with ⟨howned, hnodup, hmoves⟩
    constructor
    · refine h.withCache hindex ?_
      rw [howners, stagedExtents_moves hmoves]
      have hsplit : k.owners + (FilesystemCache.movedExtents moves + extra) =
          k.owners + extra + FilesystemCache.movedExtents moves := by abel
      rw [hsplit]
      exact howned
    · rw [List.map_map]
      exact hnodup

/-- A compaction changes nothing but the cache, or it flushes its moves. -/
theorem compact_cases (settle : VfsKernel -> List RetireId -> VfsKernel)
    {k : VfsKernel} {extra : Multiset Extent} (h : k.Sound extra) :
    (exists cache, k.compact settle = { k with cache := cache } ∧
      ({ k with cache := cache } : VfsKernel).Sound extra) ∨
    exists cache changes, k.compact settle = VfsKernel.flush settle { k with cache := cache } changes ∧
      ({ k with cache := cache } : VfsKernel).Sound (stagedExtents changes + extra) ∧
      (changes.map Prod.fst).Nodup := by
  unfold VfsKernel.compact
  rcases hcompact : k.cache.compact k.threshold with ⟨cache, result⟩
  rcases compacted_sound h hcompact with ⟨hnone, hsome⟩
  cases result with
  | none => exact Or.inl ⟨cache, rfl, hnone rfl⟩
  | some moves =>
      rcases hsome moves rfl with ⟨hsound, hnodup⟩
      exact Or.inr ⟨cache, _, rfl, hsound, hnodup⟩

theorem compact_sound {settle : VfsKernel -> List RetireId -> VfsKernel}
    {k : VfsKernel} {extra : Multiset Extent}
    (hsettle : forall k ids, VfsKernel.Sound k extra -> (settle k ids).Sound extra)
    (h : k.Sound extra) : (k.compact settle).Sound extra := by
  rcases compact_cases settle h with ⟨cache, heq, hsound⟩ | ⟨cache, changes, heq, hsound, hnodup⟩
  · rw [heq]
    exact hsound
  · rw [heq]
    exact flush_sound hsettle hsound hnodup

theorem settleWithin_sound {extra : Multiset Extent} (fuel : Nat) :
    forall (k : VfsKernel) (ids : List RetireId), k.Sound extra ->
      (VfsKernel.settleWithin fuel k ids).Sound extra := by
  induction fuel with
  | zero => exact fun k ids h => freeSettled_sound h ids
  | succ fuel ih =>
      intro k ids h
      have hfreed := freeSettled_sound h ids
      unfold VfsKernel.settleWithin
      simp only
      split_ifs
      · exact compact_sound ih hfreed
      · exact hfreed

theorem settle_sound {k : VfsKernel} {extra : Multiset Extent} (h : k.Sound extra)
    (ids : List RetireId) : (k.settle ids).Sound extra :=
  settleWithin_sound _ k ids h

theorem flushNow_sound {k : VfsKernel} {extra : Multiset Extent}
    {changes : List (Slot × Option Entry)}
    (h : k.Sound (stagedExtents changes + extra)) (hnodup : (changes.map Prod.fst).Nodup) :
    (k.flushNow changes).Sound extra :=
  flush_sound (fun _ ids hk => settle_sound hk ids) h hnodup

end SharedMemoryFs
