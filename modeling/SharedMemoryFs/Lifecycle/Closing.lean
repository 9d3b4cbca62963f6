import SharedMemoryFs.Lifecycle.Contracts

/-!
# After close

What {lit}`close` leaves behind, and the contract every asynchronous function of
the kernel keeps: resumed on a closed kernel, it changes none of it.
-/

namespace SharedMemoryFs.Lifecycle

open Foundation

structure Kernel.Closed (k : Kernel) : Prop where
  state : k.state = KernelState.closed
  cache : k.cache = none
  files : k.files = fun _ => PlaceFiles.empty
  watcher : k.watcher = false
  rechecks : k.rechecks = OrderedMap.empty

theorem Kernel.close_closed (k : Kernel) : k.close.Closed := by
  constructor
  · rfl
  · rfl
  · rfl
  · rfl
  · rfl

/-- What may happen between two awaits. -/
structure Kernel.Stays (k k' : Kernel) : Prop where
  state : k'.state = k.state
  closed : k.Closed -> k'.Closed ∧ k'.posted = k.posted

namespace Kernel.Stays

theorem refl (k : Kernel) : k.Stays k := ⟨rfl, fun h => ⟨h, rfl⟩⟩

theorem trans {k k' k'' : Kernel} (h : k.Stays k') (h' : k'.Stays k'') : k.Stays k'' := by
  constructor
  · rw [h'.state, h.state]
  · intro hclosed
    rcases h.closed hclosed with ⟨hmid, hposted⟩
    rcases h'.closed hmid with ⟨hend, hposted'⟩
    exact ⟨hend, hposted'.trans hposted⟩

/-- A kernel that is not closed has nothing to keep but its state. -/
theorem of_open {k k' : Kernel} (hstate : k'.state = k.state)
    (hopen : k.state ≠ KernelState.closed) : k.Stays k' :=
  ⟨hstate, fun h => absurd h.state hopen⟩

theorem isOpen {k k' : Kernel} (h : k.Stays k') (hopen : k'.state ≠ KernelState.closed) :
    k.state ≠ KernelState.closed := by
  rw [← h.state]
  exact hopen

/-- Epochs and tracked sources are nobody's to see. -/
theorem of_private {k k' : Kernel} (hstate : k'.state = k.state)
    (hcache : k'.cache = k.cache) (hfiles : k'.files = k.files)
    (hwatcher : k'.watcher = k.watcher) (hrechecks : k'.rechecks = k.rechecks)
    (hposted : k'.posted = k.posted) : k.Stays k' := by
  constructor
  · exact hstate
  · intro h
    constructor
    · constructor
      · rw [hstate, h.state]
      · rw [hcache, h.cache]
      · rw [hfiles, h.files]
      · rw [hwatcher, h.watcher]
      · rw [hrechecks, h.rechecks]
    · exact hposted

theorem foldl {k : Kernel} {f : Kernel -> beta -> Kernel}
    (h : forall (k : Kernel) x, k.Stays (f k x)) (xs : List beta) : k.Stays (xs.foldl f k) := by
  induction xs generalizing k with
  | nil => exact refl k
  | cons x rest ih => exact (h k x).trans ih

theorem openEpoch (k : Kernel) : k.Stays k.openEpoch :=
  of_private rfl rfl rfl rfl rfl rfl

theorem stageAll (k : Kernel) (ep : EpochRef) (changes : Delta) :
    k.Stays (k.stageAll ep changes) := by
  unfold Kernel.stageAll
  apply foldl
  intro k change
  exact of_private rfl rfl rfl rfl rfl rfl

theorem unstage (k : Kernel) (ep : EpochRef) (hosted : HostedPlace) (key : Key) :
    k.Stays (k.unstage ep hosted key) := stageAll k ep _

theorem trackSource (k : Kernel) (hosted : HostedPlace) (key : Key) (file : FileInput) :
    k.Stays (trackSource hosted key file k) := of_private rfl rfl rfl rfl rfl rfl

theorem cancelRecheck (k : Kernel) (hosted : HostedPlace) (key : Key) :
    k.Stays (k.cancelRecheck hosted key) := by
  constructor
  · rfl
  · intro h
    constructor
    · constructor
      · exact h.state
      · exact h.cache
      · exact h.files
      · exact h.watcher
      · show k.rechecks.delete (hosted.name, key) = OrderedMap.empty
        rw [h.rechecks]
        rfl
    · rfl

theorem removeMap (k : Kernel) (hosted : HostedPlace) (key : Key) :
    k.Stays (k.removeMap hosted key) := by
  constructor
  · unfold Kernel.removeMap
    simp only
    split_ifs
    · rfl
    · rfl
  · intro h
    have habsent : (k.files hosted.name).hasSource key = false := by
      rw [h.files]
      rfl
    have hsame : k.removeMap hosted key = k := by
      unfold Kernel.removeMap
      simp only [habsent, Bool.false_eq_true, if_false]
    rw [hsame]
    exact ⟨h, rfl⟩

theorem dropSource (ep : EpochRef) (hosted : HostedPlace) (k : Kernel) (key : Key) :
    k.Stays (k.dropSource ep hosted key) := by
  have huntracked : k.Stays (k.untrack hosted key) :=
    of_private rfl rfl rfl rfl rfl rfl
  have hcancelled := huntracked.trans (cancelRecheck _ hosted key)
  unfold Kernel.dropSource
  simp only
  split_ifs
  · exact hcancelled.trans (removeMap _ hosted key)
  · exact hcancelled.trans (unstage _ ep hosted key)

end Kernel.Stays

/-!
# The contract
-/

/-- Nothing is asked of others, nor of what is answered. -/
def closing : Async.Contract Ask.reply Kernel :=
  { guar := Kernel.Stays
    rely := fun _ _ => True
    answers := fun _ _ _ => True }

theorem closing_shared : closing.Shared := by
  constructor
  · exact ⟨Kernel.Stays.refl, fun _ _ _ => Kernel.Stays.trans⟩
  · intro _ _ _
    exact trivial
  · intro _ _ _ _ _
    exact trivial

theorem closing_steady : closing.Steady := closing_shared.toSteady

theorem stageAll_state (k : Kernel) (ep : EpochRef) (changes : Delta) :
    (k.stageAll ep changes).state = k.state := (Kernel.Stays.stageAll k ep changes).state

theorem closing_publishes (hosted : HostedPlace) (key : Key) : Publishes closing hosted key := by
  constructor
  · intro k ep built hopen _
    exact Kernel.Stays.of_open (stageAll_state k ep _) hopen
  · intro k file own hopen _
    exact Kernel.Stays.of_open rfl hopen
  · intro k file
    exact Kernel.Stays.trackSource k hosted key file
  · intro k hopen
    apply Kernel.Stays.of_open _ hopen
    unfold Kernel.scheduleRecheck
    split_ifs
    · rfl
    · rfl

theorem closing_handles (hosted : HostedPlace) : Handles closing hosted := by
  constructor
  · intro k ep key
    exact Kernel.Stays.of_private rfl rfl rfl rfl rfl rfl
  · intro k key
    exact Kernel.Stays.cancelRecheck k hosted key

theorem closing_refreshes (hosted : HostedPlace) (key : Key) :
    Refreshes closing hosted key := by
  constructor
  · intro _ stats k _ _
    exact closing_publishes hosted key
  · intro _ _ source dropped _ k ep
    exact Kernel.Stays.dropSource ep hosted k dropped

theorem closing_rescans (hosted : HostedPlace) (key : Key) :
    Rescans closing (fun _ => True) hosted key := by
  intro files _ _ file _ _ _ _
  exact closing_publishes hosted file.1

theorem closing_allowed (task : Serial) : task.Allowed closing (fun _ => True) := by
  cases task with
  | recheck hosted key => exact ⟨closing_handles hosted, closing_refreshes hosted key⟩
  | epoch events =>
      intro event _
      constructor
      · exact closing_handles event.1
      · cases event.2.2 with
        | change => exact closing_refreshes event.1 event.2.1
        | scan => exact closing_rescans event.1 event.2.1
        | delete => exact ⟨closing_refreshes event.1 event.2.1, closing_rescans event.1 event.2.1⟩

theorem closing_commits : Commits closing := by
  constructor
  · intro k
    exact Kernel.Stays.openEpoch k
  · intro k index ep hopen _
    apply Kernel.Stays.of_open _ hopen
    unfold Kernel.commit
    simp only
    split_ifs
    · rfl
    · rfl

/-!
# Mutations
-/

theorem keeps_copyLoop (hosted : HostedPlace) (moves : List (EntryKey × EntryKey))
    (copies : List SabStore.Copy) : Keeps closing (copyLoop hosted moves copies) := by
  induction moves generalizing copies with
  | nil => exact keeps_done copies
  | cons move rest ih =>
      rcases move with ⟨key, target⟩
      apply keeps_read
      intro k
      apply Keeps.at
      cases (k.files hosted.name).get key with
      | none => exact keeps_throw _
      | some file =>
          apply keeps_bind (keeps_allocate closing_steady hosted target _)
          intro placed
          cases placed with
          | none => exact keeps_throw _
          | some _ => exact yields_alive (ih _)

theorem keeps_virtualOp (op : VirtualOp) : Keeps closing op.prog := by
  have hc := closing_steady
  have hnew : Keeps closing newEpoch := keeps_newEpoch closing_shared closing_commits
  have hflush (ep : EpochRef) : Keeps closing (flush ep) :=
    keeps_flush closing_shared closing_commits ep
  have hpublish (ep : EpochRef) (hosted : HostedPlace) (key : Key) (file : FileInput) :
      Keeps closing (call (publishEntry ep hosted key file)) :=
    yields_call hc (keeps_publishEntry hc (closing_publishes hosted key) ep file)
  cases op with
  | publish hosted key raw now =>
      apply keeps_bind hnew
      intro ep
      apply keeps_bind (hpublish ep hosted key _)
      intro _
      exact hflush ep
  | unpublish hosted keys =>
      apply keeps_bind hnew
      intro ep
      have hunstage : Keeps closing
          (Async.modify (fun k => keys.foldl (fun k key => k.unstage ep hosted key) k)) :=
        keeps_modify hc (fun k => Kernel.Stays.foldl
          (fun k key => Kernel.Stays.unstage k ep hosted key) keys)
      apply keeps_bind hunstage
      intro _
      exact hflush ep
  | rename hosted source target =>
      apply keeps_read
      intro k
      apply Keeps.at
      cases (k.files hosted.name).get (EntryKey.ofSource source) with
      | none => exact keeps_throw _
      | some file =>
          apply keeps_bind hnew
          intro ep
          have hunstage : Keeps closing
              (Async.modify (fun k => k.unstage ep hosted source)) :=
            keeps_modify hc (fun k => Kernel.Stays.unstage k ep hosted source)
          apply keeps_bind hunstage
          intro _
          apply keeps_bind (hpublish ep hosted target _)
          intro _
          exact hflush ep
  | renameTree hosted moves =>
      apply keeps_bind (keeps_copyLoop hosted moves [])
      intro copies
      apply keeps_bind hnew
      intro ep
      have hstage (changes : Delta) :
          Keeps closing (Async.modify (fun k => k.stageAll ep changes)) :=
        keeps_modify hc (fun k => Kernel.Stays.stageAll k ep changes)
      apply keeps_bind (hstage _)
      intro _
      exact hflush ep

end SharedMemoryFs.Lifecycle
