import SharedMemoryFs.Kernel.Projection
import SharedMemoryFs.Kernel.Stability

/-!
# What the threads read

Through its projection and the memory of now, a worker reads, byte for byte, what the
main kernel had published at one moment since the worker was linked, whatever was
published, moved and freed meanwhile.  A pinned version reads as it did when it was
pinned for as long as the pin is held.
-/

namespace SharedMemoryFs

open Foundation FilesystemCache

/-- A projected file with the bytes it shows now.  A view of an unknown segment is never
projected. -/
def Content.fileIn (mem : Memory) (content : Content) : PublishedFile :=
  { stat := content.stat
    metadata := content.metadata
    scriptOptions := content.scriptOptions
    data :=
      match content.data with
      | FileData.null => Sum.inl content.path
      | FileData.empty => Sum.inr []
      | FileData.view (some segmentId) offset length =>
          Sum.inr (readBytes mem ⟨segmentId, offset, length⟩)
      | FileData.view none _ _ => Sum.inr [] }

/-- What the thread reads under {lit}`slot` while the shared memory is {lit}`mem`. -/
def Thread.reads (t : Thread) (mem : Memory) (slot : Slot) : Option PublishedFile :=
  (t.files.get slot).map (fun file => file.content.fileIn mem)

theorem fileIn_view (entry : Entry) (mem : Memory) :
    entry.view.fileIn mem = entry.fileIn mem := by
  unfold Entry.view Entry.fileIn Entry.dataIn Content.fileIn
  cases entry.kind with
  | disk path => rfl
  | shared segmentId offset length =>
      by_cases hzero : length = 0
      · rw [hzero]
        rfl
      · simp only [if_neg hzero]

theorem Thread.Projects.reads {t : Thread} {index : Index} (h : t.Projects index)
    (mem : Memory) (slot : Slot) : t.reads mem slot =
      (index.get slot).map (Entry.fileIn mem) := by
  have hfiles := congrArg (Option.map (Content.fileIn mem)) (h.files slot)
  rw [Option.map_map, Option.map_map] at hfiles
  have hview : (Content.fileIn mem) ∘ Entry.view = Entry.fileIn mem := by
    funext entry
    exact fileIn_view entry mem
  rw [hview] at hfiles
  exact hfiles

namespace VfsKernel

/-!
# Steps
-/

/-- An index of the log a link has yet to leave behind reads after a step as it did
before the step, or was added by the step and reads as what is published after it. -/
theorem noisyStep_echo {fileExt : Key -> Ext} {k k' : VfsKernel} (h : k.Sound 0)
    (hstep : NoisyStep fileExt k k') {id : LinkId} {link' : Link}
    (hlink : k'.links.get id = some link') {n : Nat} (hle : link'.since + link'.applied ≤ n)
    {index : Index} (hindex : k'.history[n]? = some index) :
    (n < k.history.length -> k.history[n]? = some index ∧ forall slot,
      (index.get slot).map (Entry.fileIn k'.cache.mem) =
        (index.get slot).map (Entry.fileIn k.cache.mem)) ∧
    (k.history.length ≤ n -> forall slot,
      (index.get slot).map (Entry.fileIn k'.cache.mem) = k'.cache.file slot) := by
  rcases noisyStep_fresh h hstep with ⟨m, hmem, hhistory, _, hfresh⟩
  constructor
  · intro hn
    rw [← hhistory] at hn ⊢
    have hold := hfresh.kept.index_back hn hindex
    rcases hfresh.kept.link_back hlink with ⟨link, hget, hsince, happlied⟩
    rw [← hsince, ← happlied] at hle
    refine ⟨hold, ?_⟩
    intro slot
    rw [← hmem]
    exact fileIn_kept hfresh hget hle hold slot
  · intro hn
    exact hfresh.echo hlink hle (hhistory.symm ▸ hn) hindex

/-- A link is no further before a step than after it. -/
theorem noisyStep_behind {fileExt : Key -> Ext} {k k' : VfsKernel} (h : k.Sound 0)
    (hstep : NoisyStep fileExt k k') {id : LinkId} {link' : Link}
    (hlink : k'.links.get id = some link') (hid : id ≤ k.nextLinkId) :
    exists link, k.links.get id = some link ∧ link.since = link'.since ∧
      link.applied ≤ link'.applied := by
  rcases noisyStep_fresh h hstep with ⟨m, _, _, hbehind, hfresh⟩
  rcases hfresh.kept.link_back hlink with ⟨link, hget, hsince, happlied⟩
  rcases hbehind id link hget hid with ⟨first, hfirst, hsince', happlied'⟩
  exact ⟨first, hfirst, hsince'.trans hsince, happlied ▸ happlied'⟩

end VfsKernel

/-!
# Runs
-/

theorem NoisyRun.trans {fileExt : Key -> Ext} {k k' k'' : VfsKernel}
    (h : NoisyRun fileExt k k') (h' : NoisyRun fileExt k' k'') : NoisyRun fileExt k k'' := by
  induction h' with
  | refl => exact h
  | step _ hstep ih => exact NoisyRun.step ih hstep

open VfsKernel in
/-- Every index of the log that the new link has yet to leave behind reads as what was
published at one moment of the run. -/
theorem echo_run {fileExt : Key -> Ext} {k k' : VfsKernel} (h : NoisyReachable fileExt k)
    (hrun : NoisyRun fileExt k.newLink k') {link : Link}
    (hlink : k'.links.get (k.nextLinkId + 1) = some link) {n : Nat}
    (hle : link.since + link.applied ≤ n) {index : Index}
    (hindex : k'.history[n]? = some index) :
    exists m, NoisyRun fileExt k.newLink m ∧ NoisyRun fileExt m k' ∧
      forall slot, (index.get slot).map (Entry.fileIn k'.cache.mem) = m.cache.file slot := by
  have hnew : NoisyReachable fileExt k.newLink := h.step (NoisyStep.step Step.link)
  induction hrun generalizing link with
  | refl =>
      have hlink : (k.links.set (k.nextLinkId + 1) _).get (k.nextLinkId + 1) = some link := hlink
      rw [OrderedMap.get_set_self] at hlink
      rw [← Option.some.inj hlink] at hle
      have hle : k.updates.length + 0 ≤ n := hle
      have hindex : k.history[n]? = some index := hindex
      have hlt := (List.getElem?_eq_some_iff.mp hindex).1
      rw [h.sound.log.length] at hlt
      have hn : n = k.updates.length := by omega
      rcases h.sound.log.last with ⟨final, hfinal, hsame⟩
      rw [hn, hfinal] at hindex
      refine ⟨k.newLink, NoisyRun.refl, NoisyRun.refl, ?_⟩
      intro slot
      show (index.get slot).map (Entry.fileIn k.cache.mem) = k.cache.file slot
      unfold FilesystemCache.file
      rw [← hsame slot, Option.some.inj hindex]
  | step hrun hstep ih =>
      rename_i before after
      have hbefore := hrun.reachable hnew
      rcases noisyStep_echo hbefore.sound hstep hlink hle hindex with ⟨hold, hadded⟩
      by_cases hn : n < before.history.length
      · rcases hold hn with ⟨hindex', hreads⟩
        have hid : k.nextLinkId + 1 ≤ before.nextLinkId := (hrun.extends hnew).next
        rcases noisyStep_behind hbefore.sound hstep hlink hid with
          ⟨first, hfirst, hsince, happlied⟩
        rcases ih hfirst (by omega) hindex' with ⟨m, hstart, hend, hfile⟩
        refine ⟨m, hstart, NoisyRun.step hend hstep, ?_⟩
        intro slot
        rw [hreads slot]
        exact hfile slot
      · exact ⟨after, NoisyRun.step hrun hstep, NoisyRun.refl, hadded (not_lt.mp hn)⟩

/-!
# Main results
-/

/-- At every moment of a run, a worker linked at {lit}`k` reads what was published at one
moment since then, and the main thread reads what is published now. -/
theorem worker_reads_past {fileExt : Key -> Ext} {k k' : VfsKernel}
    (h : NoisyReachable fileExt k) (hrun : NoisyRun fileExt k.newLink k') :
    (forall link t, k'.links.get (k.nextLinkId + 1) = some link ->
      link.worker = Worker.attached t ->
      exists m, NoisyRun fileExt k.newLink m ∧ NoisyRun fileExt m k' ∧
        forall slot, t.reads k'.cache.mem slot = m.cache.file slot) ∧
      forall slot, k'.main.reads k'.cache.mem slot = k'.cache.file slot := by
  have hnew : NoisyReachable fileExt k.newLink := h.step (NoisyStep.step Step.link)
  have hsound := (hrun.reachable hnew).sound
  constructor
  · intro link t hlink hworker
    rcases (hsound.attached hlink hworker).projects with ⟨index, hindex, hprojects⟩
    rcases echo_run h hrun hlink le_rfl hindex with ⟨m, hstart, hend, hfile⟩
    refine ⟨m, hstart, hend, ?_⟩
    intro slot
    rw [hprojects.reads]
    exact hfile slot
  · exact fun slot => hsound.main.projects.reads k'.cache.mem slot

/-- The worker of the example applied no update and reads what was published when it was
linked, though the file was published again. -/
theorem worker_reads_past_demo : exists link t m,
    VfsKernel.demo.links.get 1 = some link ∧ link.worker = Worker.attached t ∧
      NoisyRun VfsKernel.demoExt m VfsKernel.demo ∧
      forall slot, t.reads VfsKernel.demo.cache.mem slot = m.cache.file slot := by
  rcases (worker_reads_past VfsKernel.demoPublished_reachable.noisy
    VfsKernel.demo_run.noisy).1 _ _ rfl rfl with ⟨m, _, hend, hfile⟩
  exact ⟨_, _, m, rfl, rfl, hend, hfile⟩

/-- A run in which {lit}`consumer` holds its pin all the time. -/
inductive HoldingRun (fileExt : Key -> Ext) (who : Holder) (consumer : ConsumerId)
    (file : File) : VfsKernel -> VfsKernel -> Prop where
  | refl : k.Reads who consumer file -> HoldingRun fileExt who consumer file k k
  | step : HoldingRun fileExt who consumer file k k' -> NoisyStep fileExt k' k'' ->
      k''.Reads who consumer file -> HoldingRun fileExt who consumer file k k''

/-- A pinned file shows the same bytes for as long as its pin is held, in the main
thread and in a worker. -/
theorem pinned_bytes_stay {fileExt : Key -> Ext} {who : Holder} {consumer : ConsumerId}
    {file : File} {k k' : VfsKernel} (h : NoisyReachable fileExt k)
    (hrun : HoldingRun fileExt who consumer file k k') :
    NoisyReachable fileExt k' ∧
      file.content.fileIn k'.cache.mem = file.content.fileIn k.cache.mem := by
  induction hrun with
  | refl hreads => exact ⟨h, rfl⟩
  | step hrun hstep hreads ih =>
      rcases ih with ⟨hreach, hsame⟩
      refine ⟨hreach.step hstep, ?_⟩
      rw [← hsame]
      have hbytes : forall e, file.content.extent? = some e -> _ :=
        fun e he => VfsKernel.noisyStep_reads hreach.sound hstep he hreads
      unfold Content.extent? at hbytes
      unfold Content.fileIn
      cases hdata : file.content.data with
      | null => rfl
      | empty => rfl
      | view sab offset length =>
          cases sab with
          | none => rfl
          | some segmentId =>
              rw [hdata] at hbytes
              simp only [hbytes _ rfl]

def VfsKernel.demoRemoved : VfsKernel :=
  VfsKernel.demo.unpublishVirtual VfsKernel.demoPlace [['a']]

/-- The file of the example is unpublished, and the worker keeps the bytes it pinned. -/
theorem pinned_bytes_stay_demo : exists t file,
    VfsKernel.demo.thread? (Holder.link 1) = some t ∧ t.pins.held.get 0 = some file ∧
      file.content.fileIn VfsKernel.demoRemoved.cache.mem =
        file.content.fileIn VfsKernel.demo.cache.mem := by
  have hstep : NoisyStep VfsKernel.demoExt VfsKernel.demo VfsKernel.demoRemoved :=
    NoisyStep.step (Step.publication (Publication.unpublishVirtual _ _))
  have hrun := HoldingRun.step
    (@HoldingRun.refl VfsKernel.demoExt (Holder.link 1) 0 _ VfsKernel.demo ⟨_, rfl, rfl⟩)
    hstep ⟨_, rfl, rfl⟩
  exact ⟨_, _, rfl, rfl, (pinned_bytes_stay VfsKernel.demo_reachable.noisy hrun).2⟩

end SharedMemoryFs
