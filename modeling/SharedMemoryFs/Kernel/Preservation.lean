import SharedMemoryFs.Kernel.Invariant

/-!
# Every step keeps the invariant

One lemma for each kind of step.  Messages are the interesting ones: the first
delivery of an ACK ends its wait and turns what it reports into holders, the
first delivery of a release drops a holder whose thread is done, and handling
either once more takes nothing from a thread that still reads.
-/

namespace SharedMemoryFs

open Foundation

theorem initial_sound (limit segmentSize : Nat) (threshold : ℚ) :
    (VfsKernel.initial limit segmentSize threshold).Sound 0 where
  owned := SegmentRegistry.owned_new limit segmentSize
  bounded :=
    { acks := fun h => by cases h
      retired := fun h => by cases h }
  log :=
    { length := rfl
      last := ⟨OrderedMap.empty, rfl, fun _ => rfl⟩
      count := rfl
      step := fun h => by simp [VfsKernel.initial] at h
      nodup := List.nodup_nil
      ids := fun h => by cases h
      listed := fun h => by simp [VfsKernel.initial] at h }
  main :=
    { sound := sound_new
      projects :=
        { files := fun _ => rfl
          segments := fun h => by cases h }
      bound := fun _ _ h => by cases h
      log := List.Sublist.refl _ }
  links := fun h => by cases h
  pending := by
    rintro id u ⟨_, _, _, h, _⟩
    cases h
  fresh := fun h => by cases h

/-!
# Handling messages
-/

/-- Once released, an id is bound to no file of its thread any more. -/
theorem Thread.Sound.not_released {t : Thread} (h : t.Sound) (hnodup : t.bound.Nodup)
    {file : File} {id : RetireId} (hid : t.pins.retired.get file = some id) :
    id ∉ t.released := by
  intro hreleased
  have hlog := h.log id
  have hbound := List.nodup_iff_count_le_one.mp hnodup id
  have hcount : 0 < t.released.count id := List.count_pos_iff.mpr hreleased
  have hbinds : 0 < t.pins.binds id := by
    have hdelete := OrderedMap.total_delete t.pins.retired file
      (fun i => if i = id then 1 else 0)
    rw [hid, Option.elim_some, if_pos rfl] at hdelete
    unfold Pins.binds
    rw [← hdelete]
    exact Nat.succ_pos _
  omega

theorem AttachedSound.nodup {history : List Index} {updates : List Update}
    {r : Retirement} {id : LinkId} {link : Link} {t : Thread}
    (h : AttachedSound history updates r id link t) (hnodup : (retireIds updates).Nodup) :
    t.bound.Nodup := by
  refine (hnodup.sublist ?_).sublist h.log
  unfold retireIds
  exact (List.take_sublist _ _).flatMap Update.retireIds

/-- After a handler, before its ids are settled. -/
theorem VfsKernel.Sound.handled {k : VfsKernel} {extra : Multiset Extent}
    (h : k.Sound extra) (links : OrderedMap LinkId Link) {r : Retirement}
    {ids : List RetireId}
    {ends : Holder -> UpdateId -> Prop} {gains drops : Holder -> RetireId -> Prop}
    (hspec : k.retirement.HandlerSpec r ids ends gains drops)
    (hends : forall u, ¬ ends Holder.main u) (hdrops : forall i, ¬ drops Holder.main i)
    (hlinks : forall id link, links.get id = some link ->
      LinkSound k.history k.updates r id link)
    (hpending : forall id u, r.Awaits (Holder.link id) u ->
      exists link, links.get id = some link)
    (hfresh : forall id link, links.get id = some link -> id ≤ k.nextLinkId) :
    ({ k with links := links, retirement := r } : VfsKernel).Sound extra where
  owned := by
    have howned := h.owned
    unfold VfsKernel.owners at howned ⊢
    rw [← hspec.extents] at howned
    exact howned
  bounded := hspec.bounded h.bounded
  log := h.log.advance hspec.advance
  main := h.main.advance (hspec.keeps hends hdrops)
  links := fun hget => hlinks _ _ hget
  pending := fun hwait => hpending _ _ hwait
  fresh := fun hget => hfresh _ _ hget

/-- What handling {lit}`message` for a link may end and drop. -/
def UpMessage.Ends (message : UpMessage) (id : LinkId) (holder : Holder) (u : UpdateId) :
    Prop :=
  holder = Holder.link id ∧ message.ackId = some u

def UpMessage.Drops (message : UpMessage) (id : LinkId) (holder : Holder) (i : RetireId) :
    Prop :=
  holder = Holder.link id ∧ exists ids, message = UpMessage.release ids ∧ i ∈ ids

def UpMessage.Gains (message : UpMessage) (id : LinkId) (holder : Holder) (i : RetireId) :
    Prop :=
  holder = Holder.link id ∧ exists u retained, message = UpMessage.ack u retained ∧
    i ∈ retained

/-- The bookkeeping half of handling a message. -/
def Retirement.handle (r : Retirement) (id : LinkId) (message : UpMessage) :
    Retirement × List RetireId :=
  match message with
  | UpMessage.ack updateId retained => r.handleAck updateId id retained
  | UpMessage.release ids => Retirement.handleRelease (Holder.link id) r ids

theorem handle_eq (k : VfsKernel) (id : LinkId) (message : UpMessage) :
    k.handle id message =
      ({ k with retirement := (k.retirement.handle id message).1 } : VfsKernel).settle
        (k.retirement.handle id message).2 := by
  cases message <;> rfl

theorem HandlerSpec.congr {r r' : Retirement} {ids : List RetireId}
    {ends ends' : Holder -> UpdateId -> Prop} {gains drops gains' drops' : Holder -> RetireId -> Prop}
    (h : r.HandlerSpec r' ids ends gains drops)
    (hends : forall holder u, ends holder u <-> ends' holder u)
    (hgains : forall holder i, gains holder i <-> gains' holder i)
    (hdrops : forall holder i, drops holder i <-> drops' holder i) :
    r.HandlerSpec r' ids ends' gains' drops' where
  has := h.has
  extents := h.extents
  nextUpdateId := h.nextUpdateId
  nextRetireId := h.nextRetireId
  awaits := fun {holder u} => by rw [← hends holder u]; exact h.awaits
  held := fun {i holder} => by
    rw [← hdrops holder i, ← hgains holder i]
    exact h.held
  acks := h.acks
  bounded := h.bounded
  waiting := h.waiting

theorem Retirement.handle_spec (r : Retirement) (id : LinkId) (message : UpMessage) :
    r.HandlerSpec (r.handle id message).1 (r.handle id message).2
      (message.Ends id) (message.Gains id) (message.Drops id) := by
  cases message with
  | ack updateId retained =>
      refine HandlerSpec.congr (Retirement.handleAck_spec r updateId id retained) ?_ ?_ ?_
      · intro holder u
        simp [UpMessage.Ends, UpMessage.ackId, eq_comm]
      · intro holder i
        simp [UpMessage.Gains]
      · intro holder i
        simp [UpMessage.Drops]
  | release ids =>
      refine HandlerSpec.congr (Retirement.handleRelease_spec (Holder.link id) r ids) ?_ ?_ ?_
      · intro holder u
        simp [UpMessage.Ends, UpMessage.ackId]
      · intro holder i
        simp [UpMessage.Gains]
      · intro holder i
        simp [UpMessage.Drops]

/-- The other links' threads keep everything. -/
theorem HandlerSpec.keeps_other {r r' : Retirement} {ids : List RetireId} {id : LinkId}
    {message : UpMessage}
    (h : r.HandlerSpec r' ids (message.Ends id) (message.Gains id) (message.Drops id))
    {holder : Holder} (hne : holder ≠ Holder.link id) : r.Keeps holder r' :=
  h.keeps (fun _ hend => hne hend.1) (fun _ hdrop => hne hdrop.1)

/-- Nothing a live thread has bound is dropped by a release it sent. -/
theorem not_dropped {history : List Index} {updates : List Update} {r : Retirement}
    {id : LinkId} {link : Link} {t : Thread} {message : UpMessage}
    (h : AttachedSound history updates r id link t) (hnodup : (retireIds updates).Nodup)
    (hmem : message ∈ link.up ++ link.processed) {file : File} {i : RetireId}
    (hi : t.pins.retired.get file = some i) : ¬ message.Drops id (Holder.link id) i := by
  rintro ⟨_, ids, heq, hin⟩
  rw [heq] at hmem
  exact h.sound.not_released (h.nodup hnodup) hi (h.releases hmem hin)

theorem LinkSound.attached {history : List Index} {updates : List Update} {r : Retirement}
    {id : LinkId} {link : Link} {t : Thread} (h : LinkSound history updates r id link)
    (hworker : link.worker = Worker.attached t) :
    AttachedSound history updates r id link t := by
  have hw := h.worker
  unfold WorkerSound at hw
  rw [hworker] at hw
  exact hw

/-- The first delivery of the message at the head of the queue. -/
theorem LinkSound.delivered {history : List Index} {updates : List Update}
    {r r' : Retirement} {id : LinkId} {link : Link} {message : UpMessage}
    {rest : List UpMessage} {ids : List RetireId}
    (h : LinkSound history updates r id link) (hnodup : (retireIds updates).Nodup)
    (hup : link.up = message :: rest)
    (hspec : r.HandlerSpec r' ids (message.Ends id) (message.Gains id) (message.Drops id)) :
    LinkSound history updates r' id
      { link with up := rest, processed := message :: link.processed } := by
  have hmem : message ∈ link.up ++ link.processed := by
    rw [hup]
    simp
  have hrest : forall {u}, u ∈ rest.filterMap UpMessage.ackId ->
      u ∈ link.up.filterMap UpMessage.ackId ∧ message.ackId ≠ some u := by
    intro u hu
    have hacks := h.acks
    rw [hup] at hacks ⊢
    cases hack : message.ackId with
    | none =>
        rw [List.filterMap_cons_none hack]
        exact ⟨hu, fun hne => by cases hne⟩
    | some v =>
        rw [List.filterMap_cons_some hack] at hacks ⊢
        refine ⟨List.mem_cons_of_mem _ hu, ?_⟩
        intro heq
        have hlt := (List.pairwise_cons.mp hacks).1 u hu
        rw [Option.some.inj heq] at hlt
        exact absurd hlt (lt_irrefl _)
  have hacksRest : (rest.filterMap UpMessage.ackId).Pairwise (· < ·) := by
    have hacks := h.acks
    rw [hup] at hacks
    cases hack : message.ackId with
    | none =>
        rw [List.filterMap_cons_none hack] at hacks
        exact hacks
    | some v =>
        rw [List.filterMap_cons_some hack] at hacks
        exact (List.pairwise_cons.mp hacks).2
  have hle : forall {u}, message.ackId = some u -> u ≤ link.since + link.applied := by
    intro u hack
    refine h.acksLe ?_
    rw [hup, List.filterMap_cons_some hack]
    exact List.mem_cons_self
  refine
    { down := h.down
      le := h.le
      awaits := ?_
      acks := hacksRest
      acksLe := fun hu => h.acksLe (hrest hu).1
      acked := ?_
      worker := ?_ }
  · intro n u hu hn hne
    refine hspec.awaits.mpr ⟨h.awaits hu hn hne, ?_⟩
    rintro ⟨_, hack⟩
    have hbound := hle hack
    exact absurd (hbound.trans hn) (Nat.not_succ_le_self n)
  · intro u retained hin
    rcases List.mem_cons.mp hin with heq | hin
    · have hack : message.ackId = some u := by rw [← heq]; rfl
      exact ⟨hle hack, fun hwait => (hspec.awaits.mp hwait).2 ⟨rfl, hack⟩⟩
    · rcases h.acked hin with ⟨hbound, hnot⟩
      exact ⟨hbound, fun hwait => hnot (hspec.awaits.mp hwait).1⟩
  · unfold WorkerSound
    simp only
    cases hworker : link.worker with
    | handed snapshot =>
        have hw := h.worker
        unfold WorkerSound at hw
        rw [hworker] at hw
        have hnil := hw.up
        rw [hup] at hnil
        cases hnil
    | attached t =>
        have hw := h.attached hworker
        refine
          { sound := hw.sound
            projects := hw.projects
            bound := ?_
            log := hw.log
            releases := ?_ }
        · intro file i hi
          rcases hw.bound file i hi with ⟨entry, u, hview, hhas, hkept⟩
          refine ⟨entry, u, hview, hspec.has.mpr hhas, ?_⟩
          rcases hkept with hheld | ⟨hawaits, retained, hin, hret⟩
          · exact Or.inl (hspec.held.mpr (Or.inl
              ⟨hheld, not_dropped hw hnodup hmem hi⟩))
          · rw [hup] at hin
            rcases List.mem_cons.mp hin with heq | hin
            · exact Or.inl (hspec.held.mpr (Or.inr
                ⟨⟨rfl, u, retained, heq.symm, hret⟩, entry, u, hhas⟩))
            · have hackRest : u ∈ rest.filterMap UpMessage.ackId :=
                List.mem_filterMap.mpr ⟨_, hin, rfl⟩
              refine Or.inr ⟨hspec.awaits.mpr ⟨hawaits, ?_⟩, retained, hin, hret⟩
              rintro ⟨_, hack⟩
              exact (hrest hackRest).2 hack
        · intro ids i hin hi
          refine hw.releases ?_ hi
          rw [hup]
          have hin : UpMessage.release ids ∈ rest ++ message :: link.processed := hin
          simp only [List.mem_append, List.mem_cons] at hin ⊢
          rcases hin with hin | hin | hin
          · exact Or.inl (Or.inr hin)
          · exact Or.inl (Or.inl hin)
          · exact Or.inr hin
    | exited => trivial

/-- Handling a processed message once more takes nothing from its own link. -/
theorem LinkSound.repeated {history : List Index} {updates : List Update}
    {r r' : Retirement} {id : LinkId} {link : Link} {message : UpMessage}
    {ids : List RetireId}
    (h : LinkSound history updates r id link) (hnodup : (retireIds updates).Nodup)
    (hmem : message ∈ link.processed)
    (hspec : r.HandlerSpec r' ids (message.Ends id) (message.Gains id) (message.Drops id)) :
    LinkSound history updates r' id link := by
  have hawaits : forall {u}, r.Awaits (Holder.link id) u -> r'.Awaits (Holder.link id) u := by
    intro u hwait
    refine hspec.awaits.mpr ⟨hwait, ?_⟩
    rintro ⟨_, hack⟩
    cases message with
    | ack v retained =>
        have hv : v = u := Option.some.inj hack
        exact (h.acked hmem).2 (hv ▸ hwait)
    | release ids => cases hack
  refine
    { down := h.down
      le := h.le
      awaits := fun hu hn hne => hawaits (h.awaits hu hn hne)
      acks := h.acks
      acksLe := h.acksLe
      acked := fun hin => ⟨(h.acked hin).1,
        fun hwait => (h.acked hin).2 (hspec.awaits.mp hwait).1⟩
      worker := ?_ }
  unfold WorkerSound
  cases hworker : link.worker with
  | handed snapshot =>
      have hw := h.worker
      unfold WorkerSound at hw
      rw [hworker] at hw
      exact hw
  | attached t =>
      have hw := h.attached hworker
      refine
        { sound := hw.sound
          projects := hw.projects
          bound := ?_
          log := hw.log
          releases := hw.releases }
      intro file i hi
      rcases hw.bound file i hi with ⟨entry, u, hview, hhas, hkept⟩
      refine ⟨entry, u, hview, hspec.has.mpr hhas, ?_⟩
      rcases hkept with hheld | ⟨hwait, hreported⟩
      · exact Or.inl (hspec.held.mpr (Or.inl
          ⟨hheld, not_dropped hw hnodup (List.mem_append_right _ hmem) hi⟩))
      · exact Or.inr ⟨hawaits hwait, hreported⟩
  | exited => trivial

theorem get_setLink {k : VfsKernel} {id other : LinkId} {link found : Link}
    (h : (k.links.set id link).get other = some found) :
    (other = id ∧ found = link) ∨ (other ≠ id ∧ k.links.get other = some found) := by
  rw [OrderedMap.get_set] at h
  by_cases heq : other = id
  · rw [if_pos heq] at h
    exact Or.inl ⟨heq, (Option.some.inj h).symm⟩
  · rw [if_neg heq] at h
    exact Or.inr ⟨heq, h⟩

theorem link_ne {id other : LinkId} (h : other ≠ id) : Holder.link other ≠ Holder.link id :=
  fun heq => h (Holder.link.inj heq)

/-- The kernel once it handled a message, before it settles. -/
def VfsKernel.handled (k : VfsKernel) (id : LinkId) (message : UpMessage) : VfsKernel :=
  { k with retirement := (k.retirement.handle id message).1 }

theorem deliverMessage_handled {k : VfsKernel} {extra : Multiset Extent}
    (h : k.Sound extra)
    {id : LinkId} {link : Link} {message : UpMessage} {rest : List UpMessage}
    (hget : k.links.get id = some link) (hup : link.up = message :: rest) :
    ((k.setLink id
      { link with up := rest, processed := message :: link.processed }).handled id
        message).Sound extra := by
  have hspec := k.retirement.handle_spec id message
  refine h.handled _ hspec (fun u hend => by cases hend.1) (fun i hdrop => by cases hdrop.1)
    ?_ ?_ ?_
  · intro other found hfound
    rcases get_setLink hfound with ⟨heq, hlink⟩ | ⟨hne, hold⟩
    · rw [heq, hlink]
      exact (h.links hget).delivered h.log.nodup hup hspec
    · exact (h.links hold).advance (HandlerSpec.keeps_other hspec (link_ne hne)) hspec.advance
  · intro other u hwait
    rcases h.pending (hspec.awaits.mp hwait).1 with ⟨found, hfound⟩
    show exists l, (k.links.set id _).get other = some l
    rw [OrderedMap.get_set]
    by_cases heq : other = id
    · rw [if_pos heq]
      exact ⟨_, rfl⟩
    · rw [if_neg heq]
      exact ⟨found, hfound⟩
  · intro other found hfound
    rcases get_setLink hfound with ⟨heq, _⟩ | ⟨_, hold⟩
    · rw [heq]
      exact h.fresh hget
    · exact h.fresh hold

theorem repeated_handled {k : VfsKernel} {extra : Multiset Extent} (h : k.Sound extra)
    {id : LinkId} {link : Link} {message : UpMessage}
    (hget : k.links.get id = some link) (hmem : message ∈ link.processed) :
    (k.handled id message).Sound extra := by
  have hspec := k.retirement.handle_spec id message
  refine h.handled k.links hspec (fun u hend => by cases hend.1)
    (fun i hdrop => by cases hdrop.1) ?_ ?_ (fun _ _ hfound => h.fresh hfound)
  · intro other found hfound
    by_cases heq : other = id
    · rw [heq, hget] at hfound
      rw [heq, ← Option.some.inj hfound]
      exact (h.links hget).repeated h.log.nodup hmem hspec
    · exact (h.links hfound).advance (HandlerSpec.keeps_other hspec (link_ne heq))
        hspec.advance
  · exact fun other u hwait => h.pending (hspec.awaits.mp hwait).1

theorem stale_handled {k : VfsKernel} {extra : Multiset Extent} (h : k.Sound extra)
    {id : LinkId} (message : UpMessage) (hget : k.links.get id = none) :
    (k.handled id message).Sound extra := by
  have hspec := k.retirement.handle_spec id message
  refine h.handled k.links hspec (fun u hend => by cases hend.1)
    (fun i hdrop => by cases hdrop.1) ?_ ?_ (fun _ _ hfound => h.fresh hfound)
  · intro other found hfound
    have hne : other ≠ id := by
      intro heq
      rw [heq, hget] at hfound
      cases hfound
    exact (h.links hfound).advance (HandlerSpec.keeps_other hspec (link_ne hne))
      hspec.advance
  · exact fun other u hwait => h.pending (hspec.awaits.mp hwait).1

/-- The kernel once it handled the exit of a worker, before it settles. -/
def VfsKernel.closed (k : VfsKernel) (id : LinkId) : VfsKernel :=
  { k with
    links := k.links.delete id
    retirement := (k.retirement.handleWorkerExit id).1 }

theorem get_delete_ne_of_some {links : OrderedMap LinkId Link} {id other : LinkId}
    {found : Link} (h : (links.delete id).get other = some found) :
    other ≠ id ∧ links.get other = some found := by
  rw [OrderedMap.get_delete] at h
  by_cases heq : other = id
  · rw [if_pos heq] at h
    cases h
  · rw [if_neg heq] at h
    exact ⟨heq, h⟩

theorem closeLink_handled {k : VfsKernel} {extra : Multiset Extent} (h : k.Sound extra)
    (id : LinkId) : (k.closed id).Sound extra := by
  have hspec := k.retirement.handleWorkerExit_spec id
  refine h.handled (k.links.delete id) hspec (fun _ hend => by cases hend)
    (fun _ hdrop => by cases hdrop) ?_ ?_
    (fun _ _ hfound => h.fresh (get_delete_ne_of_some hfound).2)
  · intro other found hfound
    rcases get_delete_ne_of_some hfound with ⟨hne, hfound⟩
    exact (h.links hfound).advance
      (hspec.keeps (fun _ hend => link_ne hne hend) (fun _ hdrop => link_ne hne hdrop))
      hspec.advance
  · intro other u hwait
    rcases hspec.awaits.mp hwait with ⟨hawaits, hne⟩
    rcases h.pending hawaits with ⟨found, hfound⟩
    have hother : other ≠ id := fun heq => hne (by rw [heq])
    exact ⟨found, by rw [OrderedMap.get_delete_ne _ hother]; exact hfound⟩

/-!
# Workers
-/

/-- Rewriting one link that stays sound keeps the invariant. -/
theorem VfsKernel.Sound.setLink {k : VfsKernel} {extra : Multiset Extent}
    (h : k.Sound extra) {id : LinkId} {old link : Link} (hget : k.links.get id = some old)
    (hlink : LinkSound k.history k.updates k.retirement id link) :
    (k.setLink id link).Sound extra where
  owned := h.owned
  bounded := h.bounded
  log := h.log
  main := h.main
  links := by
    intro other found hfound
    rcases get_setLink hfound with ⟨heq, hfound⟩ | ⟨_, hfound⟩
    · rw [heq, hfound]
      exact hlink
    · exact h.links hfound
  pending := by
    intro other u hwait
    rcases h.pending hwait with ⟨found, hfound⟩
    show exists l, (k.links.set id link).get other = some l
    rw [OrderedMap.get_set]
    by_cases heq : other = id
    · rw [if_pos heq]
      exact ⟨link, rfl⟩
    · rw [if_neg heq]
      exact ⟨found, hfound⟩
  fresh := by
    intro other found hfound
    rcases get_setLink hfound with ⟨heq, _⟩ | ⟨_, hfound⟩
    · rw [heq]
      exact h.fresh hget
    · exact h.fresh hfound

/-- A worker changes what it pins, not what it projects. -/
theorem LinkSound.withThread {history : List Index} {updates : List Update}
    {r : Retirement} {id : LinkId} {link : Link} {t t' : Thread}
    (h : LinkSound history updates r id link) (up : List UpMessage)
    (hworker : link.worker = Worker.attached t)
    (hsound : t'.Sound) (hfiles : t'.files = t.files)
    (hsegments : t'.segmentsMap = t.segmentsMap) (hbound : t'.bound = t.bound)
    (hretired : forall {file i}, t'.pins.retired.get file = some i ->
      t.pins.retired.get file = some i)
    (hup : (link.up ++ up).filterMap UpMessage.ackId = link.up.filterMap UpMessage.ackId)
    (hreleased : forall {ids i},
      UpMessage.release ids ∈ (link.up ++ up) ++ link.processed -> i ∈ ids ->
        i ∈ t'.released) :
    LinkSound history updates r id
      { link with worker := Worker.attached t', up := link.up ++ up } := by
  have hw := h.attached hworker
  refine
    { down := h.down
      le := h.le
      awaits := h.awaits
      acks := by
        show ((link.up ++ up).filterMap UpMessage.ackId).Pairwise _
        rw [hup]
        exact h.acks
      acksLe := by
        intro u hu
        have hu : u ∈ (link.up ++ up).filterMap UpMessage.ackId := hu
        rw [hup] at hu
        exact h.acksLe hu
      acked := h.acked
      worker := ?_ }
  rcases hw.projects with ⟨index, hindex, hprojects⟩
  exact
    { sound := hsound
      projects := ⟨index, hindex, hprojects.of_eq hfiles hsegments⟩
      bound := by
        intro file i hi
        rcases hw.bound file i (hretired hi) with ⟨entry, u, hview, hhas, hkept⟩
        refine ⟨entry, u, hview, hhas, hkept.imp_right ?_⟩
        rintro ⟨hawaits, retained, hin, hret⟩
        exact ⟨hawaits, retained, List.mem_append_left _ hin, hret⟩
      log := hbound.symm ▸ hw.log
      releases := hreleased }

theorem acquire_frame (t : Thread) (consumer : ConsumerId) (slot : Slot) :
    (t.acquire consumer slot).files = t.files ∧
      (t.acquire consumer slot).segmentsMap = t.segmentsMap ∧
      (t.acquire consumer slot).bound = t.bound ∧
      (t.acquire consumer slot).released = t.released ∧
      (t.acquire consumer slot).pins.retired = t.pins.retired := by
  unfold Thread.acquire
  cases t.files.get slot <;> exact ⟨rfl, rfl, rfl, rfl, rfl⟩

theorem acquireWorker_sound {k : VfsKernel} {extra : Multiset Extent} (h : k.Sound extra)
    {id : LinkId} {link : Link} {t : Thread} {consumer : ConsumerId} (slot : Slot)
    (hget : k.links.get id = some link) (hworker : link.worker = Worker.attached t)
    (hnew : t.pins.held.get consumer = none) :
    (k.setLink id { link with worker := Worker.attached (t.acquire consumer slot) }).Sound
      extra := by
  rcases acquire_frame t consumer slot with
    ⟨hfiles, hsegments, hbound, hreleased, hretired⟩
  have hlink := h.links hget
  have hw := hlink.attached hworker
  have hnext := hlink.withThread [] hworker (sound_acquire hw.sound hnew slot)
    hfiles hsegments hbound (fun hi => hretired ▸ hi) (by rw [List.append_nil])
    (by
      rw [List.append_nil, hreleased]
      exact hw.releases)
  rw [List.append_nil] at hnext
  exact h.setLink hget hnext

theorem releaseWorker_sound {k : VfsKernel} {extra : Multiset Extent} (h : k.Sound extra)
    {id : LinkId} {link : Link} {t : Thread} (consumer : ConsumerId)
    (hget : k.links.get id = some link) (hworker : link.worker = Worker.attached t) :
    (k.releaseWorker id link t consumer).Sound extra := by
  have hlink := h.links hget
  have hw := hlink.attached hworker
  have hrelease := release_spec hw.sound consumer
  refine h.setLink hget (hlink.withThread _ hworker hrelease.sound hrelease.files
    hrelease.segmentsMap hrelease.bound hrelease.retired ?_ ?_)
  · rw [List.filterMap_append]
    cases (t.release consumer).2 with
    | none => exact List.append_nil _
    | some i => exact List.append_nil _
  · intro ids i hin hi
    rw [hrelease.log]
    simp only [List.mem_append, List.mem_map, Option.mem_toList] at hin
    rcases hin with (hin | ⟨j, hj, heq⟩) | hin
    · exact List.mem_append_left _ (hw.releases (List.mem_append_left _ hin) hi)
    · rw [← UpMessage.release.inj heq, List.mem_singleton] at hi
      refine List.mem_append_right _ (Option.mem_toList.mpr ?_)
      rw [hi]
      exact hj
    · exact List.mem_append_left _ (hw.releases (List.mem_append_right _ hin) hi)

/-- The update at the head of the queue, seen in the log. -/
structure NextUpdate (k : VfsKernel) (link : Link) (t : Thread) (u : Update)
    (rest : List Update) (before after : Index) : Prop where
  lt : link.since + link.applied < k.updates.length
  get : k.updates[link.since + link.applied]? = some u
  rest : rest = k.updates.drop (link.since + link.applied + 1)
  updateId : u.updateId = link.since + link.applied + 1
  stands : k.history[link.since + link.applied]? = some before
  leads : k.history[link.since + link.applied + 1]? = some after
  projects : t.Projects before
  apply : ApplySpec t u (t.apply u).1 (t.apply u).2 after

theorem nextUpdate {k : VfsKernel} {extra : Multiset Extent} (h : k.Sound extra)
    {id : LinkId} {link : Link} {t : Thread} {u : Update} {rest : List Update}
    (hget : k.links.get id = some link) (hworker : link.worker = Worker.attached t)
    (hdown : link.down = u :: rest) :
    exists before after, NextUpdate k link t u rest before after := by
  have hlink := h.links hget
  have hw := hlink.attached hworker
  have hdrop : k.updates.drop (link.since + link.applied) = u :: rest :=
    hlink.down.symm.trans hdown
  have hlt : link.since + link.applied < k.updates.length := by
    by_contra hge
    rw [List.drop_eq_nil_of_le (not_lt.mp hge)] at hdrop
    cases hdrop
  have hcons := List.drop_eq_getElem_cons hlt
  rw [hdrop] at hcons
  rcases List.cons.inj hcons with ⟨hhead, htail⟩
  have hnth : k.updates[link.since + link.applied]? = some u := by
    rw [List.getElem?_eq_getElem hlt, ← hhead]
  rcases h.log.step hnth with ⟨hid, before, after, hbefore, hafter, hdelta⟩
  rcases hw.projects with ⟨index, hindex, hprojects⟩
  rw [hbefore] at hindex
  rw [← Option.some.inj hindex] at hprojects
  exact ⟨before, after,
    { lt := hlt
      get := hnth
      rest := htail
      updateId := hid
      stands := hbefore
      leads := hafter
      projects := hprojects
      apply := apply_spec hw.sound hprojects hdelta }⟩

theorem deliverUpdate_sound {k : VfsKernel} {extra : Multiset Extent} (h : k.Sound extra)
    {id : LinkId} {link : Link} {t : Thread} {u : Update} {rest : List Update}
    (hget : k.links.get id = some link) (hworker : link.worker = Worker.attached t)
    (hdown : link.down = u :: rest) : (k.deliverUpdate id link t u rest).Sound extra := by
  have hlink := h.links hget
  have hw := hlink.attached hworker
  refine h.setLink hget ?_
  rcases nextUpdate h hget hworker hdown with ⟨before, after, hnext⟩
  have hlt := hnext.lt
  have hnth := hnext.get
  have htail := hnext.rest
  have hid := hnext.updateId
  have hbefore := hnext.stands
  have hafter := hnext.leads
  have hprojects := hnext.projects
  have happly := hnext.apply
  have hsucc : link.since + (link.applied + 1) = link.since + link.applied + 1 := rfl
  refine
    { down := ?_
      le := ?_
      awaits := ?_
      acks := ?_
      acksLe := ?_
      acked := ?_
      worker := ?_ }
  · show rest = k.updates.drop (link.since + (link.applied + 1))
    rw [htail, hsucc]
  · show link.since + (link.applied + 1) ≤ k.updates.length
    omega
  · intro n u' hu hn hne
    have hn : link.since + (link.applied + 1) ≤ n := hn
    exact hlink.awaits hu (by omega) hne
  · show ((link.up ++ [UpMessage.ack u.updateId (t.apply u).2]).filterMap
      UpMessage.ackId).Pairwise _
    rw [List.filterMap_append, List.pairwise_append]
    refine ⟨hlink.acks, List.pairwise_singleton _ _, ?_⟩
    intro a ha b hb
    have hb : b = u.updateId := List.mem_singleton.mp hb
    rw [hb, hid]
    exact Nat.lt_succ_of_le (hlink.acksLe ha)
  · intro v hv
    have hv : v ∈ (link.up ++ [UpMessage.ack u.updateId (t.apply u).2]).filterMap
      UpMessage.ackId := hv
    rw [List.filterMap_append] at hv
    rcases List.mem_append.mp hv with hold | hnew
    · exact (hlink.acksLe hold).trans (Nat.le_succ _)
    · have hnew : v = u.updateId := List.mem_singleton.mp hnew
      rw [hnew, hid]
      exact le_rfl
  · intro v retained hin
    rcases hlink.acked hin with ⟨hle, hnot⟩
    exact ⟨hle.trans (Nat.le_succ _), hnot⟩
  · refine
      { sound := happly.sound
        projects := ⟨after, ?_, happly.projects⟩
        bound := ?_
        log := ?_
        releases := ?_ }
    · exact hafter
    · intro file i hi
      rcases (happly.binds file i).mp hi with hold | ⟨slot, hin, hfile, hpinned⟩
      · rcases hw.bound file i hold with ⟨entry, v, hview, hhas, hkept⟩
        refine ⟨entry, v, hview, hhas, hkept.imp_right ?_⟩
        rintro ⟨hawaits, retained, hack, hret⟩
        exact ⟨hawaits, retained, List.mem_append_left _ hack, hret⟩
      · have hne : u.retired ≠ [] := List.ne_nil_of_mem hin
        have hawaits := hlink.awaits hnth le_rfl hne
        rcases Retirement.awaits_link.mp hawaits with ⟨ack, hack, _⟩
        rcases h.log.listed hnth hin hack with
          ⟨before', entry, hbefore', hentry, hhas⟩
        rw [hbefore] at hbefore'
        rw [← Option.some.inj hbefore'] at hentry
        have hcontent := hprojects.files slot
        rw [hfile, hentry] at hcontent
        refine ⟨entry, _, (Option.some.inj hcontent).symm, hhas,
          Or.inr ⟨hawaits, (t.apply u).2, ?_, ?_⟩⟩
        · rw [← hid]
          exact List.mem_append_right _ (List.mem_singleton.mpr rfl)
        · rw [happly.pinned]
          refine List.mem_map.mpr ⟨(slot, i), List.mem_filter.mpr ⟨hin, ?_⟩, rfl⟩
          unfold pinnedAt
          rw [hfile]
          exact hpinned
    · show (t.apply u).1.bound.Sublist
        (retireIds (k.updates.take (link.since + (link.applied + 1))))
      rw [happly.bound, hsucc, List.take_add_one, hnth, Option.toList_some,
        retireIds_append, happly.pinned]
      exact hw.log.append (List.filter_sublist.map Prod.snd)
    · intro ids i hin hi
      rw [happly.released]
      refine hw.releases ?_ hi
      have hin : UpMessage.release ids ∈
          (link.up ++ [UpMessage.ack u.updateId (t.apply u).2]) ++ link.processed := hin
      simp only [List.mem_append, List.mem_singleton, reduceCtorEq, or_false] at hin ⊢
      exact hin

theorem VfsKernel.Sound.snapshot_complete {k : VfsKernel} {extra : Multiset Extent}
    (h : k.Sound extra) : k.snapshot.Complete := by
  intro slot entry e hget he
  have hlive : e ∈ k.owners + extra :=
    Multiset.mem_add.mpr (Or.inl (mem_owners_index hget he))
  have hpos := h.owned.pos e hlive
  have hbyte := h.owned.allocated hlive
    (c := (e.segmentId, e.offset)) ⟨rfl, le_rfl, Nat.lt_add_of_pos_right hpos⟩
  exact List.mem_toFinset.mpr (h.owned.sound.segment_mem hbyte)

theorem newLink_sound {k : VfsKernel} {extra : Multiset Extent} (h : k.Sound extra) :
    k.newLink.Sound extra where
  owned := h.owned
  bounded := h.bounded
  log := h.log
  main := h.main
  links := by
    intro other found hfound
    rcases get_setLink (k := k) hfound with ⟨_, hlink⟩ | ⟨_, hold⟩
    · rw [hlink]
      refine
        { down := (List.drop_length (l := k.updates)).symm
          le := le_rfl
          awaits := ?_
          acks := List.Pairwise.nil
          acksLe := fun hu => by cases hu
          acked := fun hu => by cases hu
          worker := ?_ }
      · intro n u hu hle _
        have hlt : n < k.updates.length := (List.getElem?_eq_some_iff.mp hu).1
        have hle : k.updates.length + 0 ≤ n := hle
        omega
      · exact
          { applied := rfl
            index := h.log.last
            complete := h.snapshot_complete
            up := rfl
            processed := rfl }
    · exact h.links hold
  pending := by
    intro other u hwait
    rcases h.pending hwait with ⟨found, hfound⟩
    show exists l, (k.links.set _ _).get other = some l
    rw [OrderedMap.get_set]
    split_ifs
    · exact ⟨_, rfl⟩
    · exact ⟨found, hfound⟩
  fresh := by
    intro other found hfound
    show other ≤ k.nextLinkId + 1
    rcases get_setLink (k := k) hfound with ⟨heq, _⟩ | ⟨_, hold⟩
    · exact le_of_eq heq
    · exact (h.fresh hold).trans (Nat.le_succ _)

theorem attach_sound {k : VfsKernel} {extra : Multiset Extent} (h : k.Sound extra)
    {id : LinkId} {link : Link} {snapshot : Snapshot} (hget : k.links.get id = some link)
    (hworker : link.worker = Worker.handed snapshot) :
    (k.setLink id
      { link with worker := Worker.attached (Thread.fromSnapshot snapshot) }).Sound extra := by
  have hlink := h.links hget
  have hw := hlink.worker
  unfold WorkerSound at hw
  rw [hworker] at hw
  have hattach := fromSnapshot_spec hw.complete
  refine h.setLink hget
    { down := hlink.down
      le := hlink.le
      awaits := hlink.awaits
      acks := hlink.acks
      acksLe := hlink.acksLe
      acked := hlink.acked
      worker := ?_ }
  rcases hw.index with ⟨index, hindex, hsame⟩
  refine
    { sound := hattach.sound
      projects := ⟨index, ?_, hattach.projects.congr hsame⟩
      bound := ?_
      log := ?_
      releases := ?_ }
  · show k.history[link.since + link.applied]? = some index
    rw [hw.applied, add_zero]
    exact hindex
  · intro file i hi
    rw [hattach.pins] at hi
    cases hi
  · rw [hattach.bound]
    exact List.nil_sublist _
  · intro ids i hin
    have hin : UpMessage.release ids ∈ link.up ++ link.processed := hin
    rw [hw.up, hw.processed] at hin
    cases hin

theorem exit_sound {k : VfsKernel} {extra : Multiset Extent} (h : k.Sound extra)
    {id : LinkId} {link : Link} (hget : k.links.get id = some link) :
    (k.setLink id { link with worker := Worker.exited }).Sound extra := by
  have hlink := h.links hget
  exact h.setLink hget
    { down := hlink.down
      le := hlink.le
      awaits := hlink.awaits
      acks := hlink.acks
      acksLe := hlink.acksLe
      acked := hlink.acked
      worker := trivial }

/-!
# The main thread's consumers
-/

theorem VfsKernel.Sound.withMain {k : VfsKernel} {extra : Multiset Extent}
    (h : k.Sound extra) {main : Thread}
    (hmain : MainSound k.updates k.retirement main k.cache.index) :
    ({ k with main := main } : VfsKernel).Sound extra where
  owned := h.owned
  bounded := h.bounded
  log := h.log
  main := hmain
  links := h.links
  pending := h.pending
  fresh := h.fresh

theorem acquireMain_sound {k : VfsKernel} {extra : Multiset Extent} (h : k.Sound extra)
    {consumer : ConsumerId} (slot : Slot) (hnew : k.main.pins.held.get consumer = none) :
    ({ k with main := k.main.acquire consumer slot } : VfsKernel).Sound extra := by
  rcases acquire_frame k.main consumer slot with
    ⟨hfiles, hsegments, hbound, _, hretired⟩
  have hmain := h.main
  refine h.withMain
    { sound := sound_acquire hmain.sound hnew slot
      projects := hmain.projects.of_eq hfiles hsegments
      bound := ?_
      log := hbound.symm ▸ hmain.log }
  intro file i hi
  rw [hretired] at hi
  exact hmain.bound file i hi

/-- The main thread's consumer is done, its release not handled yet. -/
theorem releasedMain_sound {k : VfsKernel} {extra : Multiset Extent} (h : k.Sound extra)
    (consumer : ConsumerId) :
    ({ k with main := (k.main.release consumer).1 } : VfsKernel).Sound extra := by
  have hmain := h.main
  have hrelease := release_spec hmain.sound consumer
  exact h.withMain
    { sound := hrelease.sound
      projects := hmain.projects.of_eq hrelease.files hrelease.segmentsMap
      bound := fun file i hi => hmain.bound file i (hrelease.retired hi)
      log := hrelease.bound.symm ▸ hmain.log }

/-- The id just released is bound to no file any more. -/
theorem not_bound_of_released {t : Thread} (h : t.Sound) (hnodup : t.bound.Nodup)
    {consumer : ConsumerId} {id : RetireId} (hid : (t.release consumer).2 = some id)
    (file : File) : (t.release consumer).1.pins.retired.get file ≠ some id := by
  intro hfile
  have hrelease := release_spec h consumer
  refine hrelease.sound.not_released (hrelease.bound.symm ▸ hnodup) hfile ?_
  rw [hrelease.log, hid]
  exact List.mem_append_right _ (by simp)

theorem VfsKernel.Sound.main_nodup {k : VfsKernel} {extra : Multiset Extent}
    (h : k.Sound extra) : k.main.bound.Nodup := h.log.nodup.sublist h.main.log

/-- The main thread's release is handled, before the kernel settles. -/
def VfsKernel.releasedMain (k : VfsKernel) (consumer : ConsumerId) (id : RetireId) :
    VfsKernel :=
  { k with
    main := (k.main.release consumer).1
    retirement := (Retirement.handleRelease Holder.main k.retirement [id]).1 }

theorem releaseMain_handled {k : VfsKernel} {extra : Multiset Extent} (h : k.Sound extra)
    {consumer : ConsumerId} {id : RetireId} (hid : (k.main.release consumer).2 = some id) :
    (k.releasedMain consumer id).Sound extra := by
  have hreleased := releasedMain_sound h consumer
  have hspec := Retirement.handleRelease_spec Holder.main k.retirement [id]
  exact
    { owned := by
        have hextents : (k.releasedMain consumer id).retirement.extents =
          k.retirement.extents := hspec.extents
        unfold VfsKernel.owners
        rw [hextents]
        exact hreleased.owned
      bounded := hspec.bounded h.bounded
      log := h.log.advance hspec.advance
      main :=
        { sound := hreleased.main.sound
          projects := hreleased.main.projects
          bound := by
            intro file j hj
            rcases hreleased.main.bound file j hj with ⟨entry, u, hview, hhas, hheld⟩
            refine ⟨entry, u, hview, hspec.has.mpr hhas,
              hspec.held.mpr (Or.inl ⟨hheld, ?_⟩)⟩
            rintro ⟨_, hin⟩
            rw [List.mem_singleton] at hin
            exact not_bound_of_released h.main.sound h.main_nodup hid file (hin ▸ hj)
          log := hreleased.main.log }
      links := fun hget => (h.links hget).advance
        (hspec.keeps (fun _ hend => hend) (fun _ hdrop => by cases hdrop.1)) hspec.advance
      pending := fun hwait => h.pending (hspec.awaits.mp hwait).1
      fresh := h.fresh }

/-- A release of the main thread frees nothing, or it is handled and settled. -/
theorem releaseMain_cases (k : VfsKernel) (consumer : ConsumerId) :
    ((k.main.release consumer).2 = none ∧
        k.releaseMain consumer = { k with main := (k.main.release consumer).1 }) ∨
      exists id ids, (k.main.release consumer).2 = some id ∧
        k.releaseMain consumer = (k.releasedMain consumer id).settle ids := by
  unfold VfsKernel.releaseMain
  cases hid : (k.main.release consumer).2 with
  | none => exact Or.inl ⟨rfl, by simp only [hid]⟩
  | some id => exact Or.inr ⟨id, _, rfl, by simp only [hid]; rfl⟩

/-!
# Publications

A step of a publication is invisible outside the cache, the epochs and the
tasks, or it is such a step followed by one {lit}`#flush`.
-/

/-- Nothing the workers, the retirement or the log know of changes. -/
structure Aside (k k' : VfsKernel) : Prop where
  threshold : k'.threshold = k.threshold
  index : k'.cache.index = k.cache.index
  main : k'.main = k.main
  links : k'.links = k.links
  nextLinkId : k'.nextLinkId = k.nextLinkId
  retirement : k'.retirement = k.retirement
  history : k'.history = k.history
  updates : k'.updates = k.updates

theorem Aside.of_index {k : VfsKernel} {cache : FilesystemCache}
    {epochs : OrderedMap EpochId Changes} {tasks : OrderedMap TaskId Task}
    (hindex : cache.index = k.cache.index) :
    Aside k { k with cache := cache, epochs := epochs, tasks := tasks } :=
  ⟨rfl, hindex, rfl, rfl, rfl, rfl, rfl, rfl⟩

theorem Aside.trans {k k' k'' : VfsKernel} (h : Aside k k') (h' : Aside k' k'') :
    Aside k k'' where
  threshold := h'.threshold.trans h.threshold
  index := h'.index.trans h.index
  main := h'.main.trans h.main
  links := h'.links.trans h.links
  nextLinkId := h'.nextLinkId.trans h.nextLinkId
  retirement := h'.retirement.trans h.retirement
  history := h'.history.trans h.history
  updates := h'.updates.trans h.updates

/-- What a step of a publication leads to. -/
inductive Publishes (extra : Multiset Extent) (k : VfsKernel) : VfsKernel -> Prop where
  | aside (k' : VfsKernel) : Aside k k' -> k'.Sound extra -> Publishes extra k k'
  | flush (m : VfsKernel) (changes : List (Slot × Option Entry)) :
      Aside k m -> m.Sound (stagedExtents changes + extra) ->
      (changes.map Prod.fst).Nodup -> Publishes extra k (m.flushNow changes)

theorem Publishes.sound {extra : Multiset Extent} {k k' : VfsKernel}
    (h : Publishes extra k k') : k'.Sound extra := by
  cases h with
  | aside k' _ hsound => exact hsound
  | flush m changes _ hsound hnodup => exact flushNow_sound hsound hnodup

theorem Publishes.of_aside {extra : Multiset Extent} {k m k' : VfsKernel}
    (h : Publishes extra m k') (haside : Aside k m) : Publishes extra k k' := by
  cases h with
  | aside k' hnext hsound => exact Publishes.aside k' (haside.trans hnext) hsound
  | flush m' changes hnext hsound hnodup =>
      exact Publishes.flush m' changes (haside.trans hnext) hsound hnodup

/-- The extents besides those of the epochs and tasks. -/
def VfsKernel.base (k : VfsKernel) : Multiset Extent :=
  k.cache.index.total Entry.extents + k.retirement.extents

theorem owners_eq (k : VfsKernel) :
    k.owners = k.base + k.epochs.total Changes.extents + k.tasks.total Task.extents := rfl

theorem VfsKernel.Sound.step {k : VfsKernel} {extra extra' : Multiset Extent}
    (h : k.Sound extra) {cache : FilesystemCache} (epochs : OrderedMap EpochId Changes)
    (tasks : OrderedMap TaskId Task) (hindex : cache.index = k.cache.index)
    (howned : cache.registry.Owned
      (k.base + epochs.total Changes.extents + tasks.total Task.extents + extra')) :
    ({ k with cache := cache, epochs := epochs, tasks := tasks } : VfsKernel).Sound
      extra' := by
  refine h.publishing hindex ?_
  rw [hindex]
  exact howned

theorem stageInto_publishes {k : VfsKernel} {extra : Multiset Extent} {epoch : EpochId}
    {changes : List (Slot × Option Entry)} (h : k.Sound (stagedExtents changes + extra)) :
    Publishes extra k (k.stageInto epoch changes) := by
  let old := (k.epochs.get epoch).getD OrderedMap.empty
  let staged := stageAll (k.cache, old) changes
  have htotal : (k.epochs.set epoch staged.2).total Changes.extents + old.extents =
      k.epochs.total Changes.extents + staged.2.extents := by
    have hset := OrderedMap.total_set k.epochs epoch staged.2 Changes.extents
    cases hget : k.epochs.get epoch with
    | none =>
        have hold : old.extents = 0 := by
          simp only [old, hget, Option.getD_none]
          rfl
        rw [hget] at hset
        rw [hold]
        exact hset
    | some changes =>
        have hold : old = changes := by simp only [old, hget, Option.getD_some]
        rw [hget] at hset
        rw [hold]
        exact hset
  -- The epoch's own changes leave the total while they are restaged.
  have hrest : exists rest, k.epochs.total Changes.extents = rest + old.extents := by
    cases hget : k.epochs.get epoch with
    | none =>
        refine ⟨k.epochs.total Changes.extents, ?_⟩
        simp only [old, hget, Option.getD_none]
        exact (add_zero _).symm
    | some changes =>
        have hdelete := OrderedMap.total_delete k.epochs epoch Changes.extents
        rw [hget, Option.elim_some] at hdelete
        refine ⟨(k.epochs.delete epoch).total Changes.extents, ?_⟩
        simp only [old, hget, Option.getD_some]
        exact hdelete.symm
  rcases hrest with ⟨rest, hrest⟩
  rw [hrest] at htotal
  have hset : (k.epochs.set epoch staged.2).total Changes.extents =
      rest + staged.2.extents := by
    have hswap : rest + old.extents + staged.2.extents =
        rest + staged.2.extents + old.extents := by abel
    rw [hswap] at htotal
    exact add_right_cancel htotal
  refine Publishes.aside _ (Aside.of_index (stageAll_index _ _).1)
    (h.step _ _ (stageAll_index _ _).1 ?_)
  rw [hset]
  have howned := h.owned
  rw [owners_eq, hrest] at howned
  have hsplit : k.base + (rest + old.extents) + k.tasks.total Task.extents +
        (stagedExtents changes + extra) =
      k.base + rest + k.tasks.total Task.extents + extra + old.extents +
        stagedExtents changes := by abel
  rw [hsplit] at howned
  have hstaged := owned_stageAll howned
  have hjoin : k.base + (rest + staged.2.extents) + k.tasks.total Task.extents + extra =
      k.base + rest + k.tasks.total Task.extents + extra + staged.2.extents := by abel
  rw [hjoin]
  exact hstaged

theorem entries_nodup (changes : Changes) : (changes.entries.map Prod.fst).Nodup :=
  changes.nodup

theorem stagedExtents_entries (changes : Changes) :
    stagedExtents changes.entries = changes.extents := rfl

/-- Changes staged into an empty epoch, before they are flushed. -/
theorem VfsKernel.Sound.staged {k : VfsKernel} {extra : Multiset Extent}
    {changes : List (Slot × Option Entry)} (h : k.Sound (stagedExtents changes + extra)) :
    ({ k with cache := (stageAll (k.cache, OrderedMap.empty) changes).1 } : VfsKernel).Sound
      (stagedExtents (stageAll (k.cache, OrderedMap.empty) changes).2.entries + extra) := by
  rw [stagedExtents_entries]
  refine h.step k.epochs k.tasks (stageAll_index _ _).1 ?_
  have howned := h.owned
  rw [owners_eq] at howned
  have hsplit : k.base + k.epochs.total Changes.extents + k.tasks.total Task.extents +
        (stagedExtents changes + extra) =
      k.base + k.epochs.total Changes.extents + k.tasks.total Task.extents + extra +
        Changes.extents OrderedMap.empty + stagedExtents changes := by
    have hempty : Changes.extents OrderedMap.empty = 0 := rfl
    rw [hempty, add_zero]
    abel
  rw [hsplit] at howned
  have hstaged := owned_stageAll howned
  rw [add_comm (Changes.extents _) extra, ← add_assoc]
  exact hstaged

theorem publish_publishes {k : VfsKernel} {extra : Multiset Extent}
    {changes : List (Slot × Option Entry)} (h : k.Sound (stagedExtents changes + extra)) :
    Publishes extra k (k.publish changes) :=
  Publishes.flush _ _ (Aside.of_index (stageAll_index _ _).1) h.staged (entries_nodup _)

theorem unstaged_extents (place : PlaceConfig) (keys : List Key) :
    stagedExtents (unstaged place keys) = 0 := by
  unfold unstaged stagedExtents
  refine List.sum_eq_zero ?_
  intro x hx
  simp only [List.mem_map, List.mem_flatMap] at hx
  rcases hx with ⟨_, ⟨_, _, _, _, heq⟩, hx⟩
  rw [← hx, ← heq]
  rfl

/-- An epoch leaves the table with its changes, before they are flushed. -/
theorem VfsKernel.Sound.closeEpoch {k : VfsKernel} {extra : Multiset Extent} {epoch : EpochId}
    {changes : Changes} (h : k.Sound extra) (hget : k.epochs.get epoch = some changes) :
    ({ k with epochs := k.epochs.delete epoch } : VfsKernel).Sound
      (stagedExtents changes.entries + extra) := by
  refine h.step _ k.tasks rfl ?_
  have howned := h.owned
  rw [owners_eq] at howned
  have hdelete := OrderedMap.total_delete k.epochs epoch Changes.extents
  rw [hget, Option.elim_some] at hdelete
  rw [← hdelete] at howned
  rw [stagedExtents_entries]
  have hsplit : k.base + (k.epochs.delete epoch).total Changes.extents +
        k.tasks.total Task.extents + (changes.extents + extra) =
      k.base + ((k.epochs.delete epoch).total Changes.extents + changes.extents) +
        k.tasks.total Task.extents + extra := by abel
  rw [hsplit]
  exact howned

theorem flushEpoch_publishes {k : VfsKernel} {extra : Multiset Extent} {epoch : EpochId}
    {changes : Changes} (h : k.Sound extra) (hget : k.epochs.get epoch = some changes) :
    Publishes extra k (k.flushEpoch epoch changes) :=
  Publishes.flush _ _ (Aside.of_index rfl) (h.closeEpoch hget) (entries_nodup changes)

/-- A task's share of the owned extents, and how to give it a new state. -/
theorem tasks_split {tasks : OrderedMap TaskId Task} {id : TaskId} {t : Task}
    (h : tasks.get id = some t) : exists rest,
      tasks.total Task.extents = rest + t.extents ∧
      (tasks.delete id).total Task.extents = rest ∧
      forall t', (tasks.set id t').total Task.extents = rest + t'.extents := by
  have hdelete := OrderedMap.total_delete tasks id Task.extents
  rw [h, Option.elim_some] at hdelete
  refine ⟨_, hdelete.symm, rfl, ?_⟩
  intro t'
  have hset := OrderedMap.total_set tasks id t' Task.extents
  rw [h, Option.elim_some, ← hdelete] at hset
  have hswap : (tasks.delete id).total Task.extents + t.extents + t'.extents =
      (tasks.delete id).total Task.extents + t'.extents + t.extents := by abel
  rw [hswap] at hset
  exact add_right_cancel hset

/-- A step of one task that leaves the index alone. -/
theorem VfsKernel.Sound.task {k : VfsKernel} {extra : Multiset Extent} (h : k.Sound extra)
    {id : TaskId} {t t' : Task} {cache : FilesystemCache}
    (hget : k.tasks.get id = some t) (hindex : cache.index = k.cache.index)
    (howned : forall live, k.cache.registry.Owned (live + t.extents) ->
      cache.registry.Owned (live + t'.extents)) :
    ({ k with cache := cache, tasks := k.tasks.set id t' } : VfsKernel).Sound extra := by
  rcases tasks_split hget with ⟨rest, htotal, _, hset⟩
  refine h.step k.epochs _ hindex ?_
  rw [hset]
  have hold := h.owned
  rw [owners_eq, htotal] at hold
  have hsplit : forall x : Multiset Extent,
      k.base + k.epochs.total Changes.extents + (rest + x) + extra =
        k.base + k.epochs.total Changes.extents + rest + extra + x := by
    intro x
    abel
  rw [hsplit] at hold ⊢
  exact howned _ hold

/-- The end of a task, with {lit}`own` extents passed on to what follows. -/
theorem VfsKernel.Sound.endTask {k : VfsKernel} {extra : Multiset Extent}
    (h : k.Sound extra) (own : Multiset Extent) {id : TaskId} {t : Task} {cache : FilesystemCache}
    (hget : k.tasks.get id = some t) (hindex : cache.index = k.cache.index)
    (howned : forall live, k.cache.registry.Owned (live + t.extents) ->
      cache.registry.Owned (live + own)) :
    ({ k with cache := cache, tasks := k.tasks.delete id } : VfsKernel).Sound
      (own + extra) := by
  rcases tasks_split hget with ⟨rest, htotal, hdelete, _⟩
  refine h.step k.epochs _ hindex ?_
  rw [hdelete]
  have hold := h.owned
  rw [owners_eq, htotal] at hold
  have hsplit : k.base + k.epochs.total Changes.extents + (rest + t.extents) + extra =
      k.base + k.epochs.total Changes.extents + rest + extra + t.extents := by abel
  rw [hsplit] at hold
  have hjoin : k.base + k.epochs.total Changes.extents + rest + (own + extra) =
      k.base + k.epochs.total Changes.extents + rest + extra + own := by abel
  rw [hjoin]
  exact howned _ hold

theorem startTask_sound {k : VfsKernel} {extra : Multiset Extent} (h : k.Sound extra)
    {id : TaskId} {t : Task} {cache : FilesystemCache} (hget : k.tasks.get id = none)
    (hindex : cache.index = k.cache.index)
    (howned : cache.registry.Owned (k.owners + extra + t.extents)) :
    ({ k with cache := cache, tasks := k.tasks.set id t } : VfsKernel).Sound extra := by
  refine h.step k.epochs _ hindex ?_
  rw [OrderedMap.total_set_new hget]
  rw [owners_eq] at howned
  have hsplit : k.base + k.epochs.total Changes.extents +
        (k.tasks.total Task.extents + t.extents) + extra =
      k.base + k.epochs.total Changes.extents + k.tasks.total Task.extents + extra +
        t.extents := by abel
  rw [hsplit]
  exact howned

theorem finishStore_publishes {fileExt : Key -> Ext} {k : VfsKernel} {extra : Multiset Extent}
    (h : k.Sound extra) {id : TaskId} {t : Store} {answer : Answer}
    {result : FilesystemCache × Progress Store}
    (hget : k.tasks.get id = some (Task.store t))
    (hresume : t.resume fileExt k.cache answer = some result) :
    Publishes extra k (k.finishStore id t result) := by
  have hspec : forall live, k.cache.registry.Owned (live + (Task.store t).extents) ->
      ProgressSpec k.cache live t.placed Store.extents result :=
    fun live howned => Store.resume_spec howned hresume
  rcases tasks_split hget with ⟨rest, htotal, _, _⟩
  have hindex : result.1.index = k.cache.index := by
    have hold := h.owned
    rw [owners_eq, htotal] at hold
    have hsplit : k.base + k.epochs.total Changes.extents +
          (rest + (Task.store t).extents) + extra =
        k.base + k.epochs.total Changes.extents + rest + extra +
          (Task.store t).extents := by abel
    rw [hsplit] at hold
    exact (hspec _ hold).index
  rcases result with ⟨cache, progress⟩
  cases progress with
  | suspended next =>
      exact Publishes.aside _ (Aside.of_index hindex)
        (h.task hget hindex (fun live hl => (hspec live hl).owned))
  | failed =>
      have hend := h.endTask 0 hget hindex (fun live hl => (hspec live hl).owned)
      rw [zero_add] at hend
      exact Publishes.aside _ (Aside.of_index hindex) hend
  | done changes =>
      have hended : Aside k { k with cache := cache, tasks := k.tasks.delete id } :=
        Aside.of_index hindex
      have hend := h.endTask (stagedExtents changes) hget hindex
        (fun live hl => (hspec live hl).owned)
      unfold VfsKernel.finishStore
      simp only
      cases t.target with
      | shared epoch => exact (stageInto_publishes hend).of_aside hended
      | own removed =>
          refine Publishes.of_aside (publish_publishes ?_) hended
          rw [stagedExtents_append, unstaged_extents, zero_add]
          exact hend

theorem finishTree_publishes {k : VfsKernel} {extra : Multiset Extent} (h : k.Sound extra)
    {id : TaskId} {t : Tree} {result : FilesystemCache × Progress Tree}
    (hget : k.tasks.get id = some (Task.tree t))
    (hresume : t.resume k.main.files k.cache = some result) :
    Publishes extra k (k.finishTree id result) := by
  have hspec : forall live, k.cache.registry.Owned (live + (Task.tree t).extents) ->
      ProgressSpec k.cache live (copiedExtents t.copies) Tree.extents result :=
    fun live howned => Tree.resume_spec howned hresume
  rcases tasks_split hget with ⟨rest, htotal, _, _⟩
  have hindex : result.1.index = k.cache.index := by
    have hold := h.owned
    rw [owners_eq, htotal] at hold
    have hsplit : k.base + k.epochs.total Changes.extents +
          (rest + (Task.tree t).extents) + extra =
        k.base + k.epochs.total Changes.extents + rest + extra +
          (Task.tree t).extents := by abel
    rw [hsplit] at hold
    exact (hspec _ hold).index
  rcases result with ⟨cache, progress⟩
  cases progress with
  | suspended next =>
      exact Publishes.aside _ (Aside.of_index hindex)
        (h.task hget hindex (fun live hl => (hspec live hl).owned))
  | failed =>
      have hend := h.endTask 0 hget hindex (fun live hl => (hspec live hl).owned)
      rw [zero_add] at hend
      exact Publishes.aside _ (Aside.of_index hindex) hend
  | done changes =>
      have hend := h.endTask (stagedExtents changes) hget hindex
        (fun live hl => (hspec live hl).owned)
      exact Publishes.of_aside (publish_publishes hend) (Aside.of_index hindex)

theorem delete_absent {tasks : OrderedMap TaskId Task} {id : TaskId}
    (h : tasks.get id = none) :
    (tasks.delete id).total Task.extents = tasks.total Task.extents := by
  have hdelete := OrderedMap.total_delete tasks id Task.extents
  rw [h, Option.elim_none, add_zero] at hdelete
  exact hdelete

theorem startTree_publishes {k : VfsKernel} {extra : Multiset Extent} (h : k.Sound extra)
    {id : TaskId} (place : PlaceConfig) (moves : List (EntryKey × EntryKey))
    (hget : k.tasks.get id = none) : Publishes extra k (k.startTree id place moves) := by
  have hnone : copiedExtents [] = 0 := rfl
  have hspec : ProgressSpec k.cache (k.owners + extra) (copiedExtents []) Tree.extents
      (Tree.advance place k.main.files k.cache [] moves) :=
    advance_spec place k.main.files [] moves (by
      rw [hnone, add_zero]
      exact h.owned)
  unfold VfsKernel.startTree
  generalize Tree.advance place k.main.files k.cache [] moves = result at *
  rcases result with ⟨cache, progress⟩
  have hended : forall own, cache.registry.Owned (k.owners + extra + own) ->
      ({ k with cache := cache, tasks := k.tasks.delete id } : VfsKernel).Sound
        (own + extra) := by
    intro own howned
    refine h.step k.epochs _ hspec.index ?_
    rw [delete_absent hget]
    rw [owners_eq] at howned
    rw [add_comm own extra, ← add_assoc]
    exact howned
  cases progress with
  | suspended next =>
      exact Publishes.aside _ (Aside.of_index hspec.index)
        (startTask_sound h hget hspec.index hspec.owned)
  | failed =>
      have hend := hended 0 hspec.owned
      rw [zero_add] at hend
      exact Publishes.aside _ (Aside.of_index hspec.index) hend
  | done changes =>
      exact Publishes.of_aside (publish_publishes (hended _ hspec.owned))
        (Aside.of_index hspec.index)

/-!
# Runs
-/

theorem publication_publishes {fileExt : Key -> Ext} {k k' : VfsKernel} (h : k.Sound 0)
    (hstep : Publication fileExt k k') : Publishes 0 k k' := by
  cases hstep with
  | openEpoch epoch hget =>
      refine Publishes.aside _ (Aside.of_index rfl)
        (h.step _ k.tasks rfl ?_)
      rw [OrderedMap.total_set_new hget]
      have hempty : Changes.extents OrderedMap.empty = 0 := rfl
      rw [hempty, add_zero, add_zero]
      simpa only [owners_eq, add_zero] using h.owned
  | unstage epoch place keys hhas =>
      refine stageInto_publishes ?_
      rw [unstaged_extents, zero_add]
      exact h
  | flushEpoch epoch changes hget hquiet => exact flushEpoch_publishes h hget
  | unpublishVirtual place keys =>
      refine publish_publishes ?_
      rw [unstaged_extents, zero_add]
      exact h
  | startStore id target place key input hget hepoch =>
      rcases Store.start_spec h.owned fileExt target place key input with
        ⟨howned, hindex, _⟩
      exact Publishes.aside _ (Aside.of_index hindex)
        (startTask_sound h hget hindex howned)
  | filled id t ok data result hget hfilled =>
      have hindex : result.1.index = k.cache.index := by
        rcases tasks_split hget with ⟨rest, htotal, _⟩
        have hold := h.owned
        rw [owners_eq, htotal, add_zero, ← add_assoc] at hold
        exact (Store.filled_spec hold hfilled).2.1
      exact Publishes.aside _ (Aside.of_index hindex)
        (h.task hget hindex (fun live hl => (Store.filled_spec hl hfilled).1))
  | resumeStore id t answer result hget hresume => exact finishStore_publishes h hget hresume
  | startTree id place moves hget => exact startTree_publishes h place moves hget
  | unfilled id t data result hget hunfilled =>
      have hindex : result.1.index = k.cache.index := by
        rcases tasks_split hget with ⟨rest, htotal, _⟩
        have hold := h.owned
        rw [owners_eq, htotal, add_zero, ← add_assoc] at hold
        exact (Tree.unfilled_spec hold hunfilled).2.1
      exact Publishes.aside _ (Aside.of_index hindex)
        (h.task hget hindex (fun live hl => (Tree.unfilled_spec hl hunfilled).1))
  | resumeTree id t result hget hresume => exact finishTree_publishes h hget hresume

theorem step_sound {fileExt : Key -> Ext} {k k' : VfsKernel} (h : k.Sound 0)
    (hstep : Step fileExt k k') : k'.Sound 0 := by
  cases hstep with
  | publication hstep => exact (publication_publishes h hstep).sound
  | link => exact newLink_sound h
  | attach id link snapshot hget hworker => exact attach_sound h hget hworker
  | deliverUpdate id link t update rest hget hworker hdown =>
      exact deliverUpdate_sound h hget hworker hdown
  | deliverMessage id link message rest hget hup =>
      unfold VfsKernel.deliverMessage
      rw [handle_eq]
      exact settle_sound (deliverMessage_handled h hget hup) _
  | acquireMain consumer slot hnew => exact acquireMain_sound h slot hnew
  | releaseMain consumer =>
      rcases releaseMain_cases k consumer with ⟨_, heq⟩ | ⟨id, ids, hid, heq⟩
      · rw [heq]
        exact releasedMain_sound h consumer
      · rw [heq]
        exact settle_sound (releaseMain_handled h hid) ids
  | acquireWorker id link t consumer slot hget hworker hnew =>
      exact acquireWorker_sound h slot hget hworker hnew
  | releaseWorker id link t consumer hget hworker =>
      exact releaseWorker_sound h consumer hget hworker
  | exit id link hget => exact exit_sound h hget
  | close id link hget hworker => exact settle_sound (closeLink_handled h id) _

theorem noisyStep_sound {fileExt : Key -> Ext} {k k' : VfsKernel} (h : k.Sound 0)
    (hstep : NoisyStep fileExt k k') : k'.Sound 0 := by
  cases hstep with
  | step hstep => exact step_sound h hstep
  | repeated id link message hget hmem =>
      rw [handle_eq]
      exact settle_sound (repeated_handled h hget hmem) _
  | stale id message hget =>
      rw [handle_eq]
      exact settle_sound (stale_handled h message hget) _

theorem NoisyReachable.sound {fileExt : Key -> Ext} {k : VfsKernel}
    (h : NoisyReachable fileExt k) : k.Sound 0 := by
  induction h with
  | initial limit segmentSize threshold => exact initial_sound limit segmentSize threshold
  | step _ hstep ih => exact noisyStep_sound ih hstep

end SharedMemoryFs
