import SharedMemoryFs.Foundation.Duties
import SharedMemoryFs.Watch.Canonical

/-!
# The jobs of an epoch

What a job has seen to when it ends, in terms of what one publication and one deletion
see to, and what the jobs of an epoch have seen to when none of them is left.
-/

namespace SharedMemoryFs.Lifecycle

open Foundation

/-- A file on disk that the place caches. -/
def Disk.Caches (d : Disk) (hosted : HostedPlace) (key : Key) (stats : DiskStat) : Prop :=
  d.stat (hosted.pathOf key) = Except.ok stats ∧ stats.kind = DiskKind.file ∧
    hosted.scanExt.all (fun ext => ext.contains (hosted.place.fileExt key)) = true

/-- The job of this event has the stat of its path looked at for a file. -/
def Change.Refreshes (hosted : HostedPlace) (key : Key) (event : Change) : Prop :=
  event = Change.delete ∨ event = Change.change ∧
    hosted.scanExt.all (fun ext => ext.contains (hosted.place.fileExt key)) = true

/-- What an event of an epoch leads to: {lit}`seen` of the file at its path, {lit}`found`
of every file below it, and {lit}`gone` of a path where nothing is. -/
structure Handled (d : Disk) (strict : Bool) (seen found gone : Key -> Kernel -> Prop)
    (hosted : HostedPlace) (key : Key) (event : Change) (k : Kernel) : Prop where
  nothing : (d.stat (hosted.pathOf key)).toOption = none -> event.Refreshes hosted key -> gone key k
  file : forall stats, d.Caches hosted key stats -> event.Refreshes hosted key -> seen key k
  directory : forall stats, d.stat (hosted.pathOf key) = Except.ok stats ->
    stats.kind = DiskKind.directory -> event = Change.delete ∨ event = Change.scan ->
    forall scanned, scanned ∈ d.scan strict hosted key -> found scanned.1 k

/-- What one publication and one deletion of an epoch see to under a contract. -/
structure Upkeep (c : Async.Contract Ask.reply Kernel) (duty : Async.Duty Kernel) (d : Disk)
    (ep : EpochRef) (hosted : HostedPlace) (inv : Kernel -> Prop)
    (seen found gone : Key -> Kernel -> Prop) : Prop where
  stable : c.Stable inv
  stableSeen : forall key, c.Stable (seen key)
  stableFound : forall key, c.Stable (found key)
  stableGone : forall key, c.Stable (gone key)
  tracked : forall key k, inv k -> k.Tracks hosted key -> found key k
  found : forall key k, inv k -> seen key k -> found key k
  publish : forall key stats, BelowRoot key -> d.Caches hosted key stats ->
    Async.Serve c duty inv (publish ep hosted key (diskFile hosted key stats.stat) true)
      (fun _ k => inv k ∧ seen key k) (fun _ _ => False)
  unpublish : forall key, OfNames key -> (d.stat (hosted.pathOf key)).toOption = none ->
    Async.Serve c duty inv (unpublish ep hosted key) (fun _ k => inv k ∧ gone key k)
      (fun _ k => inv k ∧ gone key k)

section Jobs

variable {c : Async.Contract Ask.reply Kernel} {duty : Async.Duty Kernel} {d : Disk}
variable {strict : Bool} {ep : EpochRef} {hosted : HostedPlace} {inv : Kernel -> Prop}
variable {seen found gone : Key -> Kernel -> Prop}
variable (hc : c.Shared) (hmet : c.Stable duty.met) (hd : FromDisk c d strict)
variable (h : Upkeep c duty d ep hosted inv seen found gone)

theorem caches_of_scan {start : Key} {scanned : Key × FileInput}
    (hmem : scanned ∈ d.scan strict hosted start) :
    exists stats, d.Caches hosted scanned.1 stats ∧
      scanned.2 = diskFile hosted scanned.1 stats.stat := by
  rcases Disk.mem_scan hmem with ⟨entries, entry, _, _, hentry⟩
  have hadd := (Disk.scanEntry_addFile hentry).1
  rcases Disk.addFile_stat hadd with ⟨hkey, stats, hstat, hkind, hfile⟩
  have hext : hosted.scanExt.all
      (fun ext => ext.contains (hosted.place.fileExt (start ++ PosixPath.text entry.1))) = true := by
    by_contra hnot
    unfold Disk.addFile at hadd
    rw [if_neg hnot] at hadd
    cases hadd
  rw [hkey]
  exact ⟨stats, ⟨hstat, hkind, hext⟩, hfile⟩

include h in
theorem Upkeep.handled (key : Key) (event : Change) :
    c.Stable (Handled d strict seen found gone hosted key event) := by
  intro k k' hk hrely
  constructor
  · exact fun hnone hrefreshes => h.stableGone key k k' (hk.nothing hnone hrefreshes) hrely
  · exact fun stats hcaches hrefreshes =>
      h.stableSeen key k k' (hk.file stats hcaches hrefreshes) hrely
  · exact fun stats hfound hdirectory hevent scanned hmem => h.stableFound scanned.1 k k'
      (hk.directory stats hfound hdirectory hevent scanned hmem) hrely

include hc hmet h

theorem Upkeep.call_publish {key : Key} {stats : DiskStat} (hbelow : BelowRoot key)
    (hcaches : d.Caches hosted key stats) :
    Async.Serve c duty inv
      (call (Lifecycle.publish ep hosted key (diskFile hosted key stats.stat) true))
      (fun _ k => inv k ∧ seen key k) (fun _ _ => False) :=
  Async.serve_settle hc hmet (h.publish key stats hbelow hcaches)
    (fun _ k k' hk hrely => ⟨h.stable k k' hk.1 hrely, h.stableSeen key k k' hk.2 hrely⟩)
    (fun _ _ _ hk _ => hk)

/-- A rescan has seen to every file it was given, those tracked already included. -/
theorem Upkeep.publishNew {files : List (Key × FileInput)}
    (hfiles : forall file, file ∈ files -> BelowRoot file.1 ∧
      exists stats, d.Caches hosted file.1 stats ∧ file.2 = diskFile hosted file.1 stats.stat)
    {before : Kernel -> Prop} (hbefore : c.Stable before) :
    Async.Serve c duty (fun k => inv k ∧ before k) (publishNew ep hosted files)
      (fun _ k => (inv k ∧ before k) ∧ forall file, file ∈ files -> found file.1 k)
      (fun _ _ => False) := by
  induction files generalizing before with
  | nil => exact Async.serve_done (fun k hk => ⟨hk, fun file hmem => by cases hmem⟩)
  | cons file rest ih =>
      rcases hfiles file List.mem_cons_self with ⟨hbelow, stats, hcaches, hfile⟩
      have hboth : c.Stable (fun k => before k ∧ found file.1 k) :=
        fun k k' hk hrely => ⟨hbefore k k' hk.1 hrely, h.stableFound file.1 k k' hk.2 hrely⟩
      have hrest := ih (fun file hmem => hfiles file (List.mem_cons_of_mem _ hmem)) hboth
      have hgoes : Async.Serve c duty (fun k => inv k ∧ before k ∧ found file.1 k)
          (Lifecycle.publishNew ep hosted rest)
          (fun _ k => (inv k ∧ before k) ∧ forall other, other ∈ file :: rest -> found other.1 k)
          (fun _ _ => False) := by
        apply Async.serve_weaken hrest (fun _ hk => hk) _ (fun _ _ hk => hk)
        intro _ k hk
        refine ⟨⟨hk.1.1, hk.1.2.1⟩, ?_⟩
        intro other hmem
        rcases List.mem_cons.mp hmem with heq | hother
        · rw [heq]
          exact hk.1.2.2
        · exact hk.2 other hother
      apply Async.serve_read
      intro k hk
      split_ifs with htracked
      · apply Async.serve_weaken hgoes _ (fun _ _ hend => hend) (fun _ _ hend => hend)
        intro k' heq
        rw [heq]
        exact ⟨hk.1, hk.2, h.tracked file.1 k hk.1 htracked⟩
      · have hfirst : Async.Serve c duty (fun k => inv k ∧ before k)
            (call (Lifecycle.publish ep hosted file.1 file.2 true))
            (fun _ k => inv k ∧ before k ∧ found file.1 k) (fun _ _ => False) := by
          rw [hfile]
          apply Async.serve_weaken
            (Async.serve_frame hc hmet hbefore (h.call_publish hc hmet hbelow hcaches))
            (fun _ hk => hk)
          · exact fun _ k hend => ⟨hend.1.1, hend.2, h.found file.1 k hend.1.1 hend.1.2⟩
          · exact fun _ _ hend => hend.1
        apply Async.serve_weaken (Async.serve_bind hc hmet hfirst (fun _ => hgoes)) _
          (fun _ _ hend => hend) (fun _ _ hend => hend)
        intro k' heq
        rw [heq]
        exact hk

include hd

theorem Upkeep.rescan {key : Key} (hkey : OfNames key) :
    Async.Serve c duty inv (Lifecycle.rescan ep hosted key)
      (fun _ k => inv k ∧ forall file, file ∈ d.scan strict hosted key -> found file.1 k)
      (fun _ _ => False) := by
  apply Async.serve_ask hc hmet h.stable
  intro answer k hanswer
  have hscan : answer = d.scan strict hosted key := hd _ _ _ hanswer
  rw [hscan]
  apply Async.serve_weaken
    (h.publishNew hc hmet (fun _ hmem => ⟨scan_below hkey hmem, caches_of_scan hmem⟩)
      c.stable_true)
  · exact fun k' hk => ⟨hk.2, trivial⟩
  · exact fun _ k' hend => ⟨hend.1.1, hend.2⟩
  · exact fun _ _ hend => hend

variable (hroot : forall stats, d.stat (hosted.pathOf []) = Except.ok stats ->
  stats.kind ≠ DiskKind.file)
include hroot

/-- What a refresh has seen to: a file it publishes, or nothing that it removes. -/
theorem Upkeep.refresh {key : Key} (hkey : OfNames key) :
    Async.Serve c duty inv (Lifecycle.refresh ep hosted key true)
      (fun _ k => inv k ∧ Handled d strict seen found gone hosted key Change.change k)
      (fun _ k => inv k ∧ Handled d strict seen found gone hosted key Change.change k) := by
  have hscans : ¬ (Change.change = Change.delete ∨ Change.change = Change.scan) := by
    intro hor
    rcases hor with heq | heq
    · cases heq
    · cases heq
  unfold Lifecycle.refresh
  split_ifs with hext
  · apply Async.serve_ask hc hmet h.stable
    intro answer k hanswer
    have hstat : answer = (d.stat (hosted.pathOf key)).toOption := hd _ _ _ hanswer
    rw [hstat]
    cases hd' : d.stat (hosted.pathOf key) with
    | error error =>
        have hnone : (d.stat (hosted.pathOf key)).toOption = none := by
          rw [hd']
          rfl
        have hgone : forall k, inv k ∧ gone key k ->
            inv k ∧ Handled d strict seen found gone hosted key Change.change k := by
          intro k hk
          refine ⟨hk.1, fun _ _ => hk.2, ?_, fun _ _ _ hor => absurd hor hscans⟩
          intro stats hcaches
          cases hd'.symm.trans hcaches.1
        exact Async.serve_weaken (h.unpublish key hkey hnone) (fun _ hk => hk.2)
          (fun _ => hgone) (fun _ => hgone)
    | ok stats =>
        have hothers : forall k, inv k -> (forall stats, d.Caches hosted key stats -> seen key k) ->
            inv k ∧ Handled d strict seen found gone hosted key Change.change k := by
          intro k hk hfound
          refine ⟨hk, ?_, fun stats hcaches _ => hfound stats hcaches,
            fun _ _ _ hor => absurd hor hscans⟩
          intro hnone
          rw [hd'] at hnone
          cases hnone
        show Async.Serve c duty _ (if stats.kind = DiskKind.file then _ else _) _ _
        split_ifs with hkind
        · have hcaches : d.Caches hosted key stats := ⟨hd', hkind, hext⟩
          have hbelow : BelowRoot key := by
            apply hkey.below
            intro hnil
            rw [hnil] at hd'
            exact hroot stats hd' hkind
          apply Async.serve_weaken (h.call_publish hc hmet hbelow hcaches) (fun _ hk => hk.2)
          · exact fun _ k hend => hothers k hend.1 (fun _ _ => hend.2)
          · exact fun _ _ hend => hend.elim
        · apply Async.serve_done
          intro k' hk
          apply hothers k' hk.2
          intro other hcaches
          cases hd'.symm.trans hcaches.1
          exact absurd hcaches.2.1 hkind
  · apply Async.serve_done
    intro k hk
    have hnot : ¬ Change.change.Refreshes hosted key := by
      intro hrefreshes
      rcases hrefreshes with heq | ⟨_, hmatch⟩
      · cases heq
      · exact hext hmatch
    exact ⟨hk, fun _ hrefreshes => absurd hrefreshes hnot,
      fun _ _ hrefreshes => absurd hrefreshes hnot, fun _ _ _ hor => absurd hor hscans⟩

theorem Upkeep.remove {key : Key} (hkey : OfNames key) :
    Async.Serve c duty inv (Lifecycle.remove ep hosted key)
      (fun _ k => inv k ∧ Handled d strict seen found gone hosted key Change.delete k)
      (fun _ k => inv k ∧ Handled d strict seen found gone hosted key Change.delete k) := by
  apply Async.serve_ask hc hmet h.stable
  intro answer k hanswer
  have hstat : answer = (d.stat (hosted.pathOf key)).toOption := hd _ _ _ hanswer
  rw [hstat]
  cases hd' : d.stat (hosted.pathOf key) with
  | error error =>
      have hnone : (d.stat (hosted.pathOf key)).toOption = none := by
        rw [hd']
        rfl
      have hgone : forall k, inv k ∧ gone key k ->
          inv k ∧ Handled d strict seen found gone hosted key Change.delete k := by
        intro k hk
        refine ⟨hk.1, fun _ _ => hk.2, ?_, ?_⟩
        · intro stats hcaches
          cases hd'.symm.trans hcaches.1
        · intro stats hfound
          cases hd'.symm.trans hfound
      exact Async.serve_weaken (h.unpublish key hkey hnone) (fun _ hk => hk.2) (fun _ => hgone)
        (fun _ => hgone)
  | ok stats =>
      have hsome : (d.stat (hosted.pathOf key)).toOption ≠ none := by
        rw [hd']
        intro hnone
        cases hnone
      show Async.Serve c duty _ (if stats.kind = DiskKind.directory then _ else _) _ _
      split_ifs with hkind
      · have hscanned : forall k, (inv k ∧ forall file, file ∈ d.scan strict hosted key ->
            found file.1 k) -> inv k ∧ Handled d strict seen found gone hosted key Change.delete k := by
          intro k hk
          refine ⟨hk.1, fun hnone => absurd hnone hsome, ?_, fun _ _ _ _ => hk.2⟩
          intro other hcaches
          cases hd'.symm.trans hcaches.1
          cases hkind.symm.trans hcaches.2.1
        apply Async.serve_weaken _ (fun _ hk => hk.2) (fun _ => hscanned)
          (fun _ _ hend => False.elim hend)
        apply Async.serve_settle hc hmet (h.rescan hc hmet hd hkey)
        · intro _ k k' hk hrely
          exact ⟨h.stable k k' hk.1 hrely,
            fun file hmem => h.stableFound file.1 k k' (hk.2 file hmem) hrely⟩
        · exact fun _ _ _ hk _ => hk
      · have hfile : forall k, inv k ∧ Handled d strict seen found gone hosted key Change.change k ->
            inv k ∧ Handled d strict seen found gone hosted key Change.delete k := by
          intro k hk
          refine ⟨hk.1, fun hnone => absurd hnone hsome, ?_, ?_⟩
          · intro other hcaches _
            exact hk.2.file other hcaches (Or.inr ⟨rfl, hcaches.2.2⟩)
          · intro other hfound hdirectory
            cases hd'.symm.trans hfound
            exact absurd hdirectory hkind
        apply Async.serve_weaken _ (fun _ hk => hk.2) (fun _ => hfile) (fun _ => hfile)
        have hstable : c.Stable (fun k =>
            inv k ∧ Handled d strict seen found gone hosted key Change.change k) :=
          fun k k' hk hrely => ⟨h.stable k k' hk.1 hrely, h.handled key _ k k' hk.2 hrely⟩
        exact Async.serve_settle hc hmet (h.refresh hc hmet hd hroot hkey) (fun _ => hstable)
          (fun _ => hstable)

/-- Whatever a job comes upon, it has seen to the files of its event when it ends. -/
theorem Upkeep.job {key : Key} (hkey : OfNames key) (event : Change) :
    Async.Serve c duty inv (Lifecycle.job ep hosted key event)
      (fun _ k => inv k ∧ Handled d strict seen found gone hosted key event k)
      (fun _ k => inv k ∧ Handled d strict seen found gone hosted key event k) := by
  cases event with
  | change => exact h.refresh hc hmet hd hroot hkey
  | delete => exact h.remove hc hmet hd hroot hkey
  | scan =>
      have hnot : ¬ Change.scan.Refreshes hosted key := by
        intro hrefreshes
        rcases hrefreshes with heq | ⟨heq, _⟩
        · cases heq
        · cases heq
      apply Async.serve_weaken (h.rescan hc hmet hd hkey) (fun _ hk => hk)
      · exact fun _ k hend => ⟨hend.1, fun _ hrefreshes => absurd hrefreshes hnot,
          fun _ _ hrefreshes => absurd hrefreshes hnot, fun _ _ _ _ => hend.2⟩
      · exact fun _ _ hend => hend.elim

end Jobs

end SharedMemoryFs.Lifecycle
