import SharedMemoryFs.Kernel.Projection

/-!
# Retirement drains

Who keeps a retired version is known on both sides.  A link whose ACK is pending
has the update or the ACK in its queues; a link that holds a record has a pin
bound to it or the release in its queue; and the main thread holds a record for a
pin of its own.  With empty queues and no pins nothing is left to hold a record.
-/

namespace SharedMemoryFs

open Foundation

def UpMessage.releaseIds : UpMessage -> List RetireId
  | UpMessage.release retireIds => retireIds
  | UpMessage.ack _ _ => []

/-- A pin of the thread is bound to {lit}`id`, or its release is in {lit}`up`. -/
def Thread.Owes (t : Thread) (up : List UpMessage) (id : RetireId) : Prop :=
  (exists file, t.pins.retired.get file = some id) ∨
    exists message, message ∈ up ∧ id ∈ message.releaseIds

structure ThreadOwes (r : Retirement) (id : LinkId) (link : Link) (t : Thread) : Prop where
  held : forall {i}, r.HeldBy i (Holder.link id) -> t.Owes link.up i
  reported : forall {earlier u retained later i},
    link.up = earlier ++ UpMessage.ack u retained :: later -> i ∈ retained ->
    t.Owes later i
  sent : t.released = (link.processed.reverse ++ link.up).flatMap UpMessage.releaseIds
  bound : forall {u retained i}, UpMessage.ack u retained ∈ link.processed ++ link.up ->
    i ∈ retained -> i ∈ t.bound

def WorkerOwes (r : Retirement) (id : LinkId) (link : Link) : Prop :=
  match link.worker with
  | Worker.handed _ => forall i, ¬ r.HeldBy i (Holder.link id)
  | Worker.attached t => ThreadOwes r id link t
  | Worker.exited => True

structure LinkOwes (r : Retirement) (id : LinkId) (link : Link) : Prop where
  awaits : forall {u}, r.Awaits (Holder.link id) u ->
    (exists update, update ∈ link.down ∧ update.updateId = u) ∨
      exists retained, UpMessage.ack u retained ∈ link.up
  worker : WorkerOwes r id link

/-- Nothing holds a retired version for longer than it is needed; the versions
{lit}`ids` are about to be looked at. -/
structure VfsKernel.Draining (k : VfsKernel) (ids : List RetireId) : Prop where
  waiting : k.retirement.Waiting ids
  main : forall {i}, k.retirement.HeldBy i Holder.main ->
    exists file, k.main.pins.retired.get file = some i
  links : forall {id link}, k.links.get id = some link -> LinkOwes k.retirement id link
  registered : forall {i id}, k.retirement.HeldBy i (Holder.link id) ->
    exists link, k.links.get id = some link

/-!
# Holding less
-/

/-- {lit}`r'` waits for {lit}`holder` no more than {lit}`r` does. -/
structure Retirement.Lessens (holder : Holder) (r r' : Retirement) : Prop where
  awaits : forall {u}, r'.Awaits holder u -> r.Awaits holder u
  held : forall {i}, r'.HeldBy i holder -> r.HeldBy i holder

theorem LinkOwes.lessen {r r' : Retirement} {id : LinkId} {link : Link}
    (h : LinkOwes r id link) (hless : r.Lessens (Holder.link id) r') :
    LinkOwes r' id link where
  awaits := fun hwait => h.awaits (hless.awaits hwait)
  worker := by
    have hworker := h.worker
    unfold WorkerOwes at *
    cases hstate : link.worker with
    | handed snapshot =>
        rw [hstate] at hworker
        exact fun i hheld => hworker i (hless.held hheld)
    | attached t =>
        rw [hstate] at hworker
        exact
          { held := fun hheld => hworker.held (hless.held hheld)
            reported := hworker.reported
            sent := hworker.sent
            bound := hworker.bound }
    | exited => trivial

theorem Retirement.SweepSpec.lessens {r r' : Retirement} {ids : List RetireId}
    {freed : List Entry} (h : SweepSpec r ids r' freed) (holder : Holder) :
    r.Lessens holder r' where
  awaits := h.advance.awaits
  held := by
    intro i hheld
    rcases hheld with ⟨record, hrecord, hmem⟩
    exact ⟨record, h.back hrecord, hmem⟩

theorem Retirement.HandlerSpec.lessens {r r' : Retirement} {ids : List RetireId}
    {ends : Holder -> UpdateId -> Prop} {gains drops : Holder -> RetireId -> Prop}
    (h : HandlerSpec r r' ids ends gains drops) {holder : Holder}
    (hgains : forall i, ¬ gains holder i) : r.Lessens holder r' where
  awaits := fun hwait => (h.awaits.mp hwait).1
  held := by
    intro i hheld
    rcases h.held.mp hheld with ⟨hold, _⟩ | ⟨hgain, _⟩
    · exact hold
    · exact absurd hgain (hgains i)

theorem freeSettled_draining {k : VfsKernel} {ids : List RetireId} (h : k.Draining ids) :
    (k.freeSettled ids).1.Draining [] := by
  have hsweep := Retirement.sweep_spec k.retirement ids
  exact
    { waiting := hsweep.waiting h.waiting
      main := fun hheld => h.main ((hsweep.lessens Holder.main).held hheld)
      links := fun hget => (h.links hget).lessen (hsweep.lessens _)
      registered := fun hheld => h.registered ((hsweep.lessens _).held hheld) }

/-- A change of the cache, the epochs or the tasks. -/
theorem VfsKernel.Draining.of_eq {k k' : VfsKernel} {ids : List RetireId}
    (h : k.Draining ids) (hretirement : k'.retirement = k.retirement)
    (hmain : k'.main = k.main) (hlinks : k'.links = k.links) : k'.Draining ids where
  waiting := hretirement ▸ h.waiting
  main := by
    rw [hretirement, hmain]
    exact h.main
  links := by
    rw [hretirement, hlinks]
    exact h.links
  registered := by
    rw [hretirement, hlinks]
    exact h.registered

/-!
# Announcing
-/

theorem LinkOwes.announce {r r' : Retirement} {links : Finset LinkId}
    {olds : List (Slot × Entry)} {u : Update} {retained ids : List RetireId} {id : LinkId}
    {link : Link} (h : LinkOwes r id link)
    (hspec : Retirement.AnnounceSpec r links olds u.retired retained r' ids)
    (hupdateId : u.updateId = r.nextUpdateId + 1) : LinkOwes r' id (link.post u) := by
  have hheld : forall {i}, r'.HeldBy i (Holder.link id) -> r.HeldBy i (Holder.link id) := by
    intro i hi
    rcases hspec.held hi with hold | ⟨hmain, _⟩
    · exact hold
    · cases hmain
  constructor
  · intro n hwait
    rcases hspec.awaits.mp hwait with hold | ⟨heq, _⟩
    · rcases h.awaits hold with ⟨update, hmem, hid⟩ | hack
      · exact Or.inl ⟨update, List.mem_append_left _ hmem, hid⟩
      · exact Or.inr hack
    · exact Or.inl ⟨u, List.mem_append_right _ (List.mem_singleton.mpr rfl),
        hupdateId.trans heq.symm⟩
  · have hworker := h.worker
    unfold WorkerOwes at *
    show match link.worker with
      | Worker.handed _ => forall i, ¬ r'.HeldBy i (Holder.link id)
      | Worker.attached t => ThreadOwes r' id (link.post u) t
      | Worker.exited => True
    cases hstate : link.worker with
    | handed snapshot =>
        rw [hstate] at hworker
        exact fun i hi => hworker i (hheld hi)
    | attached t =>
        rw [hstate] at hworker
        exact
          { held := fun hi => hworker.held (hheld hi)
            reported := hworker.reported
            sent := hworker.sent
            bound := hworker.bound }
    | exited => trivial

theorem announce_draining {k : VfsKernel} {extra : Multiset Extent}
    {changes : List (Slot × Option Entry)} (h : k.Sound extra)
    (hdraining : k.Draining []) (hnodup : (changes.map Prod.fst).Nodup) :
    (k.announce (commit k.cache changes).1 (commit k.cache changes).2).1.Draining
      (k.announce (commit k.cache changes).1 (commit k.cache changes).2).2 := by
  rcases announce_announced h hnodup with ⟨u, hu, heq⟩
  have happly := apply_spec h.main.sound h.main.projects hu.delta
  have hbinds := happly.binds
  have hspec := hu.spec
  rw [heq]
  refine
    { waiting := hspec.waiting hdraining.waiting
      main := ?_
      links := ?_
      registered := ?_ }
  · intro i hheld
    show exists file, (k.main.apply u).1.pins.retired.get file = some i
    rcases hspec.held hheld with hold | ⟨_, hretained⟩
    · rcases hdraining.main hold with ⟨file, hfile⟩
      exact ⟨file, (hbinds file i).mpr (Or.inl hfile)⟩
    · exact happly.retained_bound hretained
  · intro id link' hget
    have hget : (k.links.mapValues (fun _ link => link.post u)).get id = some link' := hget
    rw [OrderedMap.get_mapValues] at hget
    rcases Option.map_eq_some_iff.mp hget with ⟨link, hlink, hpost⟩
    rw [← hpost]
    exact (hdraining.links hlink).announce hspec hu.updateId
  · intro i id hheld
    rcases hspec.held hheld with hold | ⟨hmain, _⟩
    · rcases hdraining.registered hold with ⟨link, hlink⟩
      refine ⟨link.post u, ?_⟩
      show (k.links.mapValues (fun _ link => link.post u)).get id = some (link.post u)
      rw [OrderedMap.get_mapValues, hlink]
      rfl
    · cases hmain

/-!
# Settling
-/

theorem flush_draining {settle : VfsKernel -> List RetireId -> VfsKernel}
    {k : VfsKernel} {extra : Multiset Extent}
    (hsettle : forall k ids, VfsKernel.Sound k extra -> k.Draining ids ->
      (settle k ids).Draining [])
    {changes : List (Slot × Option Entry)} (h : k.Sound (stagedExtents changes + extra))
    (hdraining : k.Draining []) (hnodup : (changes.map Prod.fst).Nodup) :
    (k.flush settle changes).Draining [] := by
  unfold VfsKernel.flush
  simp only
  split_ifs
  · exact hdraining.of_eq rfl rfl rfl
  · exact hsettle _ _ (announce_sound h hnodup) (announce_draining h hdraining hnodup)

theorem compact_draining {settle : VfsKernel -> List RetireId -> VfsKernel}
    {k : VfsKernel} {extra : Multiset Extent}
    (hsettle : forall k ids, VfsKernel.Sound k extra -> k.Draining ids ->
      (settle k ids).Draining [])
    (h : k.Sound extra) (hdraining : k.Draining []) : (k.compact settle).Draining [] := by
  rcases compact_cases settle h with ⟨cache, heq, _⟩ | ⟨cache, changes, heq, hsound, hnodup⟩
  · rw [heq]
    exact hdraining.of_eq rfl rfl rfl
  · rw [heq]
    exact flush_draining hsettle hsound (hdraining.of_eq rfl rfl rfl) hnodup

theorem settleWithin_draining {extra : Multiset Extent} (fuel : Nat) :
    forall (k : VfsKernel) (ids : List RetireId), k.Sound extra -> k.Draining ids ->
      (VfsKernel.settleWithin fuel k ids).Draining [] := by
  induction fuel with
  | zero => exact fun k ids _ hdraining => freeSettled_draining hdraining
  | succ fuel ih =>
      intro k ids h hdraining
      have hfreed := freeSettled_draining hdraining
      unfold VfsKernel.settleWithin
      simp only
      split_ifs
      · exact compact_draining ih (freeSettled_sound h ids) hfreed
      · exact hfreed

theorem settle_draining {k : VfsKernel} {extra : Multiset Extent} {ids : List RetireId}
    (h : k.Sound extra) (hdraining : k.Draining ids) : (k.settle ids).Draining [] :=
  settleWithin_draining _ k ids h hdraining

theorem flushNow_draining {k : VfsKernel} {extra : Multiset Extent}
    {changes : List (Slot × Option Entry)} (h : k.Sound (stagedExtents changes + extra))
    (hdraining : k.Draining []) (hnodup : (changes.map Prod.fst).Nodup) :
    (k.flushNow changes).Draining [] :=
  flush_draining (fun _ _ hk hd => settle_draining hk hd) h hdraining hnodup

/-!
# Messages
-/

theorem UpMessage.drops_of_mem {message : UpMessage} {id : LinkId} {i : RetireId}
    (h : i ∈ message.releaseIds) : message.Drops id (Holder.link id) i := by
  cases message with
  | ack u retained => cases h
  | release ids => exact ⟨rfl, ids, rfl, h⟩

theorem LinkOwes.delivered {r r' : Retirement} {id : LinkId} {link : Link}
    {message : UpMessage} {rest : List UpMessage} {ids : List RetireId}
    (h : LinkOwes r id link) (hup : link.up = message :: rest)
    (hworker : forall snapshot, link.worker ≠ Worker.handed snapshot)
    (hspec : r.HandlerSpec r' ids (message.Ends id) (message.Gains id) (message.Drops id)) :
    LinkOwes r' id { link with up := rest, processed := message :: link.processed } := by
  constructor
  · intro u hwait
    rcases hspec.awaits.mp hwait with ⟨hold, hnot⟩
    rcases h.awaits hold with hdown | ⟨retained, hack⟩
    · exact Or.inl hdown
    · rw [hup] at hack
      rcases List.mem_cons.mp hack with heq | hack
      · exact absurd ⟨rfl, by rw [← heq]; rfl⟩ hnot
      · exact Or.inr ⟨retained, hack⟩
  · have hw := h.worker
    unfold WorkerOwes at *
    simp only
    cases hstate : link.worker with
    | handed snapshot => exact absurd hstate (hworker snapshot)
    | attached t =>
        rw [hstate] at hw
        have hrest : forall {i}, t.Owes link.up i -> ¬ message.Drops id (Holder.link id) i ->
            t.Owes rest i := by
          intro i howes hdrop
          rcases howes with hbound | ⟨sent, hsent, hi⟩
          · exact Or.inl hbound
          · rw [hup] at hsent
            rcases List.mem_cons.mp hsent with heq | hsent
            · exact absurd (UpMessage.drops_of_mem (heq ▸ hi)) hdrop
            · exact Or.inr ⟨sent, hsent, hi⟩
        refine
          { held := ?_
            reported := ?_
            sent := ?_
            bound := ?_ }
        · intro i hheld
          rcases hspec.held.mp hheld with ⟨hold, hdrop⟩ | ⟨⟨_, u, retained, heq, hi⟩, _⟩
          · exact hrest (hw.held hold) hdrop
          · have hhead : link.up = [] ++ UpMessage.ack u retained :: rest := by
              rw [hup, heq]
              rfl
            exact hw.reported hhead hi
        · intro earlier u retained later i heq hi
          have heq : rest = earlier ++ UpMessage.ack u retained :: later := heq
          have htail : link.up = (message :: earlier) ++ UpMessage.ack u retained :: later := by
            rw [hup, heq]
            rfl
          exact hw.reported htail hi
        · rw [hw.sent, hup]
          simp only [List.reverse_cons, List.append_assoc, List.singleton_append]
        · intro u retained i hmem hi
          refine hw.bound (u := u) ?_ hi
          rw [hup]
          have hmem : UpMessage.ack u retained ∈ message :: link.processed ++ rest := hmem
          simp only [List.mem_append, List.mem_cons] at hmem ⊢
          rcases hmem with (heq | hmem) | hmem
          · exact Or.inr (Or.inl heq)
          · exact Or.inl hmem
          · exact Or.inr (Or.inr hmem)
    | exited => trivial

theorem VfsKernel.Sound.not_handed {k : VfsKernel} {extra : Multiset Extent}
    (h : k.Sound extra) {id : LinkId} {link : Link} {message : UpMessage}
    {rest : List UpMessage} (hget : k.links.get id = some link)
    (hup : link.up = message :: rest) (snapshot : Snapshot) :
    link.worker ≠ Worker.handed snapshot := by
  intro hworker
  have hnil := (h.handed hget hworker).up
  rw [hup] at hnil
  cases hnil

theorem deliverMessage_draining {k : VfsKernel} {extra : Multiset Extent}
    (h : k.Sound extra) (hdraining : k.Draining []) {id : LinkId} {link : Link}
    {message : UpMessage} {rest : List UpMessage} (hget : k.links.get id = some link)
    (hup : link.up = message :: rest) :
    ((k.setLink id
      { link with up := rest, processed := message :: link.processed }).handled id
        message).Draining (k.retirement.handle id message).2 := by
  have hspec := k.retirement.handle_spec id message
  refine
    { waiting := hspec.waiting hdraining.waiting
      main := ?_
      links := ?_
      registered := ?_ }
  · intro i hheld
    rcases hspec.held.mp hheld with ⟨hold, _⟩ | ⟨⟨hmain, _⟩, _⟩
    · exact hdraining.main hold
    · cases hmain
  · intro other found hfound
    rcases get_setLink hfound with ⟨heq, hlink⟩ | ⟨hne, hold⟩
    · rw [heq, hlink]
      exact (hdraining.links hget).delivered hup (h.not_handed hget hup) hspec
    · exact (hdraining.links hold).lessen
        (hspec.lessens (fun _ hgain => link_ne hne hgain.1))
  · intro i other hheld
    show exists l, (k.links.set id _).get other = some l
    rw [OrderedMap.get_set]
    by_cases heq : other = id
    · rw [if_pos heq]
      exact ⟨_, rfl⟩
    · rw [if_neg heq]
      rcases hspec.held.mp hheld with ⟨hold, _⟩ | ⟨⟨hsame, _⟩, _⟩
      · exact hdraining.registered hold
      · exact absurd hsame (link_ne heq)

theorem closeLink_draining {k : VfsKernel} (hdraining : k.Draining []) (id : LinkId) :
    (k.closed id).Draining (k.retirement.handleWorkerExit id).2 := by
  have hspec := k.retirement.handleWorkerExit_spec id
  have hless : forall holder, k.retirement.Lessens holder
      (k.retirement.handleWorkerExit id).1 := fun _ => hspec.lessens (fun _ hgain => hgain)
  refine
    { waiting := hspec.waiting hdraining.waiting
      main := fun hheld => hdraining.main ((hless Holder.main).held hheld)
      links := fun hget =>
        (hdraining.links (get_delete_ne_of_some hget).2).lessen (hless _)
      registered := ?_ }
  intro i other hheld
  show exists l, (k.links.delete id).get other = some l
  rcases hspec.held.mp hheld with ⟨hold, hkept⟩ | ⟨hgain, _⟩
  · have hne : other ≠ id := fun heq => hkept (by rw [heq])
    rw [OrderedMap.get_delete_ne _ hne]
    exact hdraining.registered hold
  · cases hgain

/-!
# Consumers of the main thread
-/

theorem releasedMain_draining {k : VfsKernel} {extra : Multiset Extent} (h : k.Sound extra)
    (hdraining : k.Draining []) {consumer : ConsumerId} {id : RetireId}
    (hid : (k.main.release consumer).2 = some id) :
    (k.releasedMain consumer id).Draining
      (Retirement.handleRelease Holder.main k.retirement [id]).2 := by
  have hspec := Retirement.handleRelease_spec Holder.main k.retirement [id]
  have hless : forall holder, k.retirement.Lessens holder
      (Retirement.handleRelease Holder.main k.retirement [id]).1 :=
    fun _ => hspec.lessens (fun _ hgain => hgain)
  refine
    { waiting := hspec.waiting hdraining.waiting
      main := ?_
      links := fun hget => (hdraining.links hget).lessen (hless _)
      registered := fun hheld => hdraining.registered ((hless _).held hheld) }
  intro i hheld
  rcases hspec.held.mp hheld with ⟨hold, hkept⟩ | ⟨hgain, _⟩
  · rcases hdraining.main hold with ⟨file, hfile⟩
    rcases (release_spec h.main.sound consumer).done hid with ⟨last, hlast, hdelete⟩
    refine ⟨file, ?_⟩
    show (k.main.release consumer).1.pins.retired.get file = some i
    have hne : file ≠ last := by
      intro heq
      rw [heq, hlast] at hfile
      exact hkept ⟨rfl, by rw [Option.some.inj hfile]; exact List.mem_singleton.mpr rfl⟩
    rw [hdelete, OrderedMap.get_delete_ne _ hne]
    exact hfile
  · cases hgain

theorem VfsKernel.Draining.withMain {k : VfsKernel} {ids : List RetireId}
    (h : k.Draining ids) {main : Thread}
    (hretired : main.pins.retired = k.main.pins.retired) :
    ({ k with main := main } : VfsKernel).Draining ids where
  waiting := h.waiting
  main := by
    show forall {i}, _ -> exists file, main.pins.retired.get file = some i
    rw [hretired]
    exact h.main
  links := h.links
  registered := h.registered

/-!
# Workers
-/

theorem VfsKernel.Draining.setLink {k : VfsKernel} {ids : List RetireId}
    (h : k.Draining ids) {id : LinkId} {link : Link}
    (hlink : LinkOwes k.retirement id link) : (k.setLink id link).Draining ids where
  waiting := h.waiting
  main := h.main
  links := by
    intro other found hfound
    rcases get_setLink hfound with ⟨heq, hfound⟩ | ⟨_, hold⟩
    · rw [heq, hfound]
      exact hlink
    · exact h.links hold
  registered := by
    intro i other hheld
    show exists l, (k.links.set id link).get other = some l
    rw [OrderedMap.get_set]
    by_cases heq : other = id
    · rw [if_pos heq]
      exact ⟨_, rfl⟩
    · rw [if_neg heq]
      exact h.registered hheld

theorem LinkOwes.attached {r : Retirement} {id : LinkId} {link : Link} {t : Thread}
    (h : LinkOwes r id link) (hworker : link.worker = Worker.attached t) :
    ThreadOwes r id link t := by
  have hw := h.worker
  unfold WorkerOwes at hw
  rw [hworker] at hw
  exact hw

theorem acquireWorker_owes {r : Retirement} {id : LinkId} {link : Link} {t : Thread}
    (h : LinkOwes r id link) (hworker : link.worker = Worker.attached t)
    (consumer : ConsumerId) (slot : Slot) :
    LinkOwes r id { link with worker := Worker.attached (t.acquire consumer slot) } := by
  have hw := h.attached hworker
  rcases acquire_frame t consumer slot with ⟨_, _, hbound, hreleased, hretired⟩
  have howes : forall {up i}, t.Owes up i -> (t.acquire consumer slot).Owes up i := by
    intro up i hi
    unfold Thread.Owes
    rw [hretired]
    exact hi
  exact
    { awaits := h.awaits
      worker :=
        { held := fun hheld => howes (hw.held hheld)
          reported := fun heq hi => howes (hw.reported heq hi)
          sent := hreleased.trans hw.sent
          bound := fun hmem hi => hbound.symm ▸ hw.bound hmem hi } }

theorem releaseWorker_owes {r : Retirement} {id : LinkId} {link : Link} {t : Thread}
    (h : LinkOwes r id link) (hworker : link.worker = Worker.attached t) (ht : t.Sound)
    (consumer : ConsumerId) :
    LinkOwes r id
      { link with
        worker := Worker.attached (t.release consumer).1
        up := link.up ++ (t.release consumer).2.toList.map (fun i => UpMessage.release [i]) } := by
  have hw := h.attached hworker
  have hrelease := release_spec ht consumer
  have howes : forall {up i}, t.Owes up i -> (t.release consumer).1.Owes
      (up ++ (t.release consumer).2.toList.map (fun i => UpMessage.release [i])) i := by
    intro up i hi
    rcases hi with ⟨file, hfile⟩ | ⟨message, hmem, hi⟩
    · cases hdone : (t.release consumer).2 with
      | none =>
          refine Or.inl ⟨file, ?_⟩
          rw [hrelease.kept hdone]
          exact hfile
      | some j =>
          rcases hrelease.done hdone with ⟨last, hlast, hdelete⟩
          by_cases heq : file = last
          · rw [heq, hlast] at hfile
            refine Or.inr ⟨UpMessage.release [j], by simp, ?_⟩
            rw [Option.some.inj hfile]
            exact List.mem_singleton.mpr rfl
          · refine Or.inl ⟨file, ?_⟩
            rw [hdelete, OrderedMap.get_delete_ne _ heq]
            exact hfile
    · exact Or.inr ⟨message, List.mem_append_left _ hmem, hi⟩
  constructor
  · intro u hwait
    rcases h.awaits hwait with hdown | ⟨retained, hack⟩
    · exact Or.inl hdown
    · exact Or.inr ⟨retained, List.mem_append_left _ hack⟩
  · refine
      { held := fun hheld => howes (hw.held hheld)
        reported := ?_
        sent := ?_
        bound := ?_ }
    · intro earlier u retained later i heq hi
      -- The released ids follow the last ACK.
      have hsplit : exists before, later = before ++ (t.release consumer).2.toList.map
          (fun i => UpMessage.release [i]) ∧
          link.up = earlier ++ UpMessage.ack u retained :: before := by
        have heq : link.up ++ (t.release consumer).2.toList.map
            (fun i => UpMessage.release [i]) =
            earlier ++ UpMessage.ack u retained :: later := heq
        cases hdone : (t.release consumer).2 with
        | none =>
            rw [hdone] at heq
            simp only [Option.toList_none, List.map_nil, List.append_nil] at heq ⊢
            exact ⟨later, rfl, heq⟩
        | some j =>
            rw [hdone] at heq
            simp only [Option.toList_some, List.map_cons, List.map_nil] at heq ⊢
            rcases List.eq_nil_or_concat later with hnil | ⟨before, last, hlast⟩
            · rw [hnil] at heq
              have hends := (List.append_inj' heq rfl).2
              cases hends
            · rw [hlast, List.concat_eq_append, ← List.cons_append, ← List.append_assoc] at heq
              rcases List.append_inj' heq rfl with ⟨hfront, hends⟩
              exact ⟨before, by rw [hlast, hends, List.concat_eq_append], hfront⟩
      rcases hsplit with ⟨before, hlater, hup⟩
      rw [hlater]
      exact howes (hw.reported hup hi)
    · rw [hrelease.log, hw.sent, ← List.append_assoc, List.flatMap_append]
      rw [List.flatMap_append, List.flatMap_append]
      congr 1
      cases (t.release consumer).2 <;> rfl
    · intro u retained i hmem hi
      rw [hrelease.bound]
      refine hw.bound (u := u) ?_ hi
      simp only [List.mem_append, List.mem_map] at hmem ⊢
      rcases hmem with hmem | hmem | ⟨j, _, heq⟩
      · exact Or.inl hmem
      · exact Or.inr hmem
      · cases heq

theorem deliverUpdate_owes {k : VfsKernel} {extra : Multiset Extent} (h : k.Sound extra)
    {id : LinkId} {link : Link} {t : Thread} {u : Update} {rest : List Update}
    (hget : k.links.get id = some link) (hworker : link.worker = Worker.attached t)
    (hdown : link.down = u :: rest) (howes : LinkOwes k.retirement id link) :
    LinkOwes k.retirement id
      { link with
        worker := Worker.attached (t.apply u).1
        down := rest
        up := link.up ++ [UpMessage.ack u.updateId (t.apply u).2]
        applied := link.applied + 1 } := by
  have hw := howes.attached hworker
  rcases nextUpdate h hget hworker hdown with ⟨before, after, hnext⟩
  have happly := hnext.apply
  have hgrows : forall {up later i}, t.Owes up i -> (t.apply u).1.Owes (up ++ later) i := by
    intro up later i hi
    rcases hi with ⟨file, hfile⟩ | ⟨message, hmem, hi⟩
    · exact Or.inl ⟨file, (happly.binds file i).mpr (Or.inl hfile)⟩
    · exact Or.inr ⟨message, List.mem_append_left _ hmem, hi⟩
  constructor
  · intro v hwait
    rcases howes.awaits hwait with ⟨update, hmem, hv⟩ | ⟨retained, hack⟩
    · rw [hdown] at hmem
      rcases List.mem_cons.mp hmem with heq | hmem
      · refine Or.inr ⟨(t.apply u).2, List.mem_append_right _ ?_⟩
        rw [← hv, heq]
        exact List.mem_singleton.mpr rfl
      · exact Or.inl ⟨update, hmem, hv⟩
    · exact Or.inr ⟨retained, List.mem_append_left _ hack⟩
  · refine
      { held := fun hheld => hgrows (hw.held hheld)
        reported := ?_
        sent := ?_
        bound := ?_ }
    · intro earlier v retained later i heq hi
      have heq : link.up ++ [UpMessage.ack u.updateId (t.apply u).2] =
          earlier ++ UpMessage.ack v retained :: later := heq
      rcases List.eq_nil_or_concat later with hnil | ⟨front, last, hlast⟩
      · rw [hnil] at heq
        have hends := (List.append_inj' heq rfl).2
        have hretained := (UpMessage.ack.inj (List.cons.inj hends).1).2
        rw [← hretained] at hi
        exact Or.inl (happly.retained_bound hi)
      · rw [hlast, List.concat_eq_append, ← List.cons_append, ← List.append_assoc] at heq
        have hfront := (List.append_inj' heq rfl).1
        rw [hlast, List.concat_eq_append]
        exact hgrows (hw.reported hfront hi)
    · rw [happly.released, hw.sent]
      simp [UpMessage.releaseIds]
    · intro v retained i hmem hi
      rw [happly.bound]
      have hmem : UpMessage.ack v retained ∈
          link.processed ++ (link.up ++ [UpMessage.ack u.updateId (t.apply u).2]) := hmem
      rw [← List.append_assoc] at hmem
      rcases List.mem_append.mp hmem with hold | hnew
      · exact List.mem_append_left _ (hw.bound hold hi)
      · have hretained := (UpMessage.ack.inj (List.mem_singleton.mp hnew)).2
        rw [hretained] at hi
        exact List.mem_append_right _ hi

theorem attach_owes {history : List Index} {r : Retirement} {id : LinkId} {link : Link}
    {snapshot : Snapshot} (h : LinkOwes r id link)
    (hworker : link.worker = Worker.handed snapshot)
    (hhanded : HandedSound history link snapshot) :
    LinkOwes r id { link with worker := Worker.attached (Thread.fromSnapshot snapshot) } := by
  have hattach := fromSnapshot_spec hhanded.complete
  have hnone := h.worker
  unfold WorkerOwes at hnone
  rw [hworker] at hnone
  refine
    { awaits := h.awaits
      worker :=
        { held := fun hheld => absurd hheld (hnone _)
          reported := ?_
          sent := ?_
          bound := ?_ } }
  · intro earlier u retained later i heq
    have heq : link.up = earlier ++ UpMessage.ack u retained :: later := heq
    rw [hhanded.up] at heq
    exact absurd heq.symm (by simp)
  · show (Thread.fromSnapshot snapshot).released =
      (link.processed.reverse ++ link.up).flatMap UpMessage.releaseIds
    rw [hhanded.up, hhanded.processed]
    exact hattach.released
  · intro u retained i hmem
    have hmem : UpMessage.ack u retained ∈ link.processed ++ link.up := hmem
    rw [hhanded.up, hhanded.processed] at hmem
    cases hmem

theorem newLink_draining {k : VfsKernel} {extra : Multiset Extent} (h : k.Sound extra)
    (hdraining : k.Draining []) : k.newLink.Draining [] := by
  have hfresh : forall {link}, k.links.get (k.nextLinkId + 1) ≠ some link := by
    intro link hget
    exact Nat.not_succ_le_self _ (h.fresh hget)
  have hset : (k.setLink (k.nextLinkId + 1)
      { worker := Worker.handed k.snapshot
        down := []
        up := []
        since := k.updates.length
        applied := 0
        processed := [] }).Draining [] := by
    refine hdraining.setLink
      { awaits := ?_
        worker := ?_ }
    · intro u hwait
      rcases h.pending hwait with ⟨link, hget⟩
      exact absurd hget hfresh
    · intro i hheld
      rcases hdraining.registered hheld with ⟨link, hget⟩
      exact hfresh hget
  exact
    { waiting := hset.waiting
      main := hset.main
      links := hset.links
      registered := hset.registered }

/-!
# Runs
-/

theorem VfsKernel.initial_draining (limit segmentSize : Nat) (threshold : ℚ) :
    (VfsKernel.initial limit segmentSize threshold).Draining [] where
  waiting :=
    { waits := fun hget => by cases hget
      pending := fun hget => by cases hget
      listed := fun hget => by cases hget }
  main := by
    rintro i ⟨record, hget, _⟩
    cases hget
  links := fun hget => by cases hget
  registered := by
    rintro i id ⟨record, hget, _⟩
    cases hget

theorem Publishes.draining {k k' : VfsKernel} (h : Publishes 0 k k')
    (hdraining : k.Draining []) : k'.Draining [] := by
  cases h with
  | aside k' haside _ => exact hdraining.of_eq haside.retirement haside.main haside.links
  | flush m changes haside hsound hnodup =>
      exact flushNow_draining hsound
        (hdraining.of_eq haside.retirement haside.main haside.links) hnodup

theorem step_draining {fileExt : Key -> Ext} {k k' : VfsKernel} (h : k.Sound 0)
    (hdraining : k.Draining []) (hstep : Step fileExt k k') : k'.Draining [] := by
  cases hstep with
  | publication hstep => exact (publication_publishes h hstep).draining hdraining
  | link => exact newLink_draining h hdraining
  | attach id link snapshot hget hworker =>
      exact hdraining.setLink (attach_owes (hdraining.links hget) hworker (h.handed hget hworker))
  | deliverUpdate id link t update rest hget hworker hdown =>
      exact hdraining.setLink
        (deliverUpdate_owes h hget hworker hdown (hdraining.links hget))
  | deliverMessage id link message rest hget hup =>
      unfold VfsKernel.deliverMessage
      rw [handle_eq]
      exact settle_draining (deliverMessage_handled h hget hup)
        (deliverMessage_draining h hdraining hget hup)
  | acquireMain consumer slot hnew =>
      exact hdraining.withMain (acquire_frame k.main consumer slot).2.2.2.2
  | releaseMain consumer =>
      unfold VfsKernel.releaseMain
      cases hid : (k.main.release consumer).2 with
      | none =>
          simp only [hid]
          exact hdraining.withMain ((release_spec h.main.sound consumer).kept hid)
      | some id =>
          simp only [hid]
          exact settle_draining (releaseMain_handled h hid)
            (releasedMain_draining h hdraining hid)
  | acquireWorker id link t consumer slot hget hworker hnew =>
      exact hdraining.setLink (acquireWorker_owes (hdraining.links hget) hworker consumer slot)
  | releaseWorker id link t consumer hget hworker =>
      exact hdraining.setLink (releaseWorker_owes (hdraining.links hget) hworker
        ((h.links hget).attached hworker).sound consumer)
  | exit id link hget =>
      exact hdraining.setLink
        { awaits := (hdraining.links hget).awaits
          worker := trivial }
  | close id link hget hworker =>
      exact settle_draining (closeLink_handled h id) (closeLink_draining hdraining id)

theorem Reachable.draining {fileExt : Key -> Ext} {k : VfsKernel}
    (h : Reachable fileExt k) : k.Draining [] := by
  induction h with
  | initial limit segmentSize threshold =>
      exact VfsKernel.initial_draining limit segmentSize threshold
  | step hreach hstep ih => exact step_draining hreach.noisy.sound ih hstep

/-!
# Quiescence
-/

/-- No message and no exit of a worker is on its way, no pin is held by a live
thread, and no publication is in progress. -/
structure VfsKernel.Quiescent (k : VfsKernel) : Prop where
  down : forall {id link}, k.links.get id = some link -> link.down = []
  up : forall {id link}, k.links.get id = some link -> link.up = []
  live : forall {id link}, k.links.get id = some link -> link.worker ≠ Worker.exited
  mainHeld : k.main.pins.held.size = 0
  workerHeld : forall {id link t}, k.links.get id = some link ->
    link.worker = Worker.attached t -> t.pins.held.size = 0
  epochs : k.epochs.size = 0
  tasks : k.tasks.size = 0

def Worker.isQuiet : Worker -> Bool
  | Worker.handed _ => true
  | Worker.attached t => t.pins.held.size == 0
  | Worker.exited => false

/-- {lit}`Quiescent`, as a test. -/
def VfsKernel.isQuiescent (k : VfsKernel) : Bool :=
  k.links.values.all
      (fun link => link.down.isEmpty && link.up.isEmpty && link.worker.isQuiet) &&
    k.main.pins.held.size == 0 && k.epochs.size == 0 && k.tasks.size == 0

theorem VfsKernel.quiescent_of_isQuiescent {k : VfsKernel} (h : k.isQuiescent = true) :
    k.Quiescent := by
  unfold isQuiescent at h
  simp only [Bool.and_eq_true, beq_iff_eq, List.all_eq_true, List.isEmpty_iff] at h
  rcases h with ⟨⟨⟨hlinks, hmain⟩, hepochs⟩, htasks⟩
  have hlink : forall {id link}, k.links.get id = some link ->
      (link.down = [] ∧ link.up = []) ∧ link.worker.isQuiet = true :=
    fun hget => hlinks _ (OrderedMap.mem_values_iff.mpr ⟨_, hget⟩)
  refine
    { down := fun hget => (hlink hget).1.1
      up := fun hget => (hlink hget).1.2
      live := ?_
      mainHeld := hmain
      workerHeld := ?_
      epochs := hepochs
      tasks := htasks }
  · intro id link hget hstate
    have hquiet := (hlink hget).2
    rw [hstate] at hquiet
    cases hquiet
  · intro id link t hget hstate
    have hquiet := (hlink hget).2
    rw [hstate] at hquiet
    exact beq_iff_eq.mp hquiet

theorem Thread.Sound.none_retired {t : Thread} (h : t.Sound) (hheld : t.pins.held.size = 0)
    (file : File) : t.pins.retired.get file = none := by
  cases hget : t.pins.retired.get file with
  | none => rfl
  | some id =>
      have hhas := h.pins.retired hget
      rw [OrderedMap.has_iff, h.pins.counts_none hheld file] at hhas
      rcases hhas with ⟨_, hnone⟩
      cases hnone

/-- Without pins every id ever bound was released once. -/
theorem Thread.Sound.released_once {t : Thread} (h : t.Sound)
    (hheld : t.pins.held.size = 0) (hnodup : t.bound.Nodup) {id : RetireId}
    (hid : id ∈ t.bound) : t.released.count id = 1 := by
  have hlog := h.log id
  have hbinds : t.pins.binds id = 0 := by
    have hsize : t.pins.retired.size = 0 :=
      OrderedMap.size_eq_zero_iff.mpr (h.none_retired hheld)
    unfold Pins.binds OrderedMap.total
    rw [show t.pins.retired.entries = [] from List.eq_nil_of_length_eq_zero hsize]
    rfl
  rw [hbinds, Nat.add_zero, List.count_eq_one_of_mem hnodup hid] at hlog
  exact hlog.symm

theorem VfsKernel.Quiescent.not_held {k : VfsKernel} (hquiet : k.Quiescent)
    (h : k.Sound 0) (hdraining : k.Draining []) (i : RetireId) (holder : Holder) :
    ¬ k.retirement.HeldBy i holder := by
  intro hheld
  cases holder with
  | main =>
      rcases hdraining.main hheld with ⟨file, hfile⟩
      rw [h.main.sound.none_retired hquiet.mainHeld file] at hfile
      cases hfile
  | link id =>
      rcases hdraining.registered hheld with ⟨link, hget⟩
      have hworker := (hdraining.links hget).worker
      unfold WorkerOwes at hworker
      cases hstate : link.worker with
      | handed snapshot =>
          rw [hstate] at hworker
          exact hworker i hheld
      | attached t =>
          rw [hstate] at hworker
          rcases hworker.held hheld with ⟨file, hfile⟩ | ⟨message, hmem, _⟩
          · have ht := (h.attached hget hstate).sound
            rw [ht.none_retired (hquiet.workerHeld hget hstate) file] at hfile
            cases hfile
          · rw [hquiet.up hget] at hmem
            cases hmem
      | exited => exact hquiet.live hget hstate

theorem VfsKernel.Quiescent.not_awaited {k : VfsKernel} (hquiet : k.Quiescent)
    (h : k.Sound 0) (hdraining : k.Draining []) (id : LinkId) (u : UpdateId) :
    ¬ k.retirement.Awaits (Holder.link id) u := by
  intro hwait
  rcases h.pending hwait with ⟨link, hget⟩
  rcases (hdraining.links hget).awaits hwait with ⟨update, hmem, _⟩ | ⟨retained, hmem⟩
  · rw [hquiet.down hget] at hmem
    cases hmem
  · rw [hquiet.up hget] at hmem
    cases hmem

theorem VfsKernel.Quiescent.acks_empty {k : VfsKernel} (hquiet : k.Quiescent)
    (h : k.Sound 0) (hdraining : k.Draining []) (u : UpdateId) :
    k.retirement.acks.get u = none := by
  cases hack : k.retirement.acks.get u with
  | none => rfl
  | some ack =>
      rcases Finset.nonempty_of_ne_empty (hdraining.waiting.pending hack) with ⟨id, hid⟩
      exact absurd ⟨id, ack, rfl, hack, hid⟩ (hquiet.not_awaited h hdraining id u)

theorem VfsKernel.Quiescent.retired_empty {k : VfsKernel} (hquiet : k.Quiescent)
    (h : k.Sound 0) (hdraining : k.Draining []) (id : RetireId) :
    k.retirement.retired.get id = none := by
  cases hget : k.retirement.retired.get id with
  | none => rfl
  | some record =>
      rcases hdraining.waiting.waits hget with hholders | hack | hmem
      · rcases Finset.nonempty_of_ne_empty hholders with ⟨holder, hholder⟩
        exact absurd ⟨record, hget, hholder⟩ (hquiet.not_held h hdraining id holder)
      · rw [OrderedMap.has_iff, hquiet.acks_empty h hdraining] at hack
        rcases hack with ⟨_, hnone⟩
        cases hnone
      · cases hmem

theorem total_of_size_zero [AddCommMonoid M] {m : OrderedMap alpha beta}
    (h : m.size = 0) (f : beta -> M) : m.total f = 0 := by
  unfold OrderedMap.total
  rw [show m.entries = [] from List.eq_nil_of_length_eq_zero h]
  rfl

/-!
# Main result
-/

/-- A quiescent kernel waits for nothing and keeps no retired version: the
allocated bytes are those of the published entries.  Every version a live thread
held on to was released by that thread once. -/
theorem retirement_drains {fileExt : Key -> Ext} {k : VfsKernel}
    (h : Reachable fileExt k) (hquiet : k.Quiescent) :
    k.retirement.acks.size = 0 ∧ k.retirement.retired.size = 0 ∧
      ExactCover Extent.Covers k.cache.registry.Allocated
        (k.cache.index.total Entry.extents) ∧
      (forall id link u retained i, k.links.get id = some link ->
        UpMessage.ack u retained ∈ link.processed -> i ∈ retained ->
        (link.processed.flatMap UpMessage.releaseIds).count i = 1) ∧
      forall i, i ∈ k.main.bound -> k.main.released.count i = 1 := by
  have hsound := h.noisy.sound
  have hdraining := h.draining
  have hacks : k.retirement.acks.size = 0 :=
    OrderedMap.size_eq_zero_iff.mpr (hquiet.acks_empty hsound hdraining)
  have hretired : k.retirement.retired.size = 0 :=
    OrderedMap.size_eq_zero_iff.mpr (hquiet.retired_empty hsound hdraining)
  refine ⟨hacks, hretired, ?_, ?_, ?_⟩
  · have howned := hsound.owned
    have hextents : k.retirement.extents = 0 := total_of_size_zero hretired _
    unfold VfsKernel.owners at howned
    rw [hextents, total_of_size_zero hquiet.epochs, total_of_size_zero hquiet.tasks,
      add_zero, add_zero, add_zero, add_zero] at howned
    exact howned.exact_
  · intro id link u retained i hget hmem hi
    cases hstate : link.worker with
    | handed snapshot =>
        rw [(hsound.handed hget hstate).processed] at hmem
        cases hmem
    | attached t =>
        have hw := (hdraining.links hget).attached hstate
        have ht := hsound.attached hget hstate
        have hbound : i ∈ t.bound := hw.bound (List.mem_append_left _ hmem) hi
        have honce := ht.sound.released_once (hquiet.workerHeld hget hstate)
          (ht.nodup hsound.log.nodup) hbound
        rw [hw.sent, hquiet.up hget, List.append_nil] at honce
        rw [← honce]
        exact ((List.reverse_perm link.processed).flatMap_right _).symm.count_eq i
    | exited => exact absurd hstate (hquiet.live hget)
  · intro i hi
    exact hsound.main.sound.released_once hquiet.mainHeld hsound.main_nodup hi

/-- The rest of the example: the worker applies the second update, its ACK is
handled, and its consumer finishes. -/
def VfsKernel.demoQuiet : VfsKernel :=
  demo.run demoExt [Action.update 1, Action.message 1, Action.release 1 0, Action.message 1]

theorem retirement_drains_demo :
    VfsKernel.demoQuiet.retirement.retired.size = 0 ∧
      ExactCover Extent.Covers VfsKernel.demoQuiet.cache.registry.Allocated
        (VfsKernel.demoQuiet.cache.index.total Entry.extents) :=
  have hdrains := retirement_drains
    ((VfsKernel.run_schedule _ _).reachable VfsKernel.demo_reachable)
    (VfsKernel.quiescent_of_isQuiescent (k := VfsKernel.demoQuiet) (by decide))
  ⟨hdrains.2.1, hdrains.2.2.1⟩

end SharedMemoryFs
