import SharedMemoryFs.Lifecycle.Finality
import SharedMemoryFs.Watch.Admission

/-!
# Links the scanner refuses

What holds of the kernel and of its watcher in every state of a run whose tasks meet
no link they should not follow.
-/

namespace SharedMemoryFs.Lifecycle

open Foundation

variable {config : Config} {strict : Bool} {d : Disk}

/-!
# The tasks still queued
-/

theorem feed_serial (ep : EpochRef) (queue : List (HostedPlace × Key × FileInput))
    (r : Runtime) : (Runtime.feed ep queue r).serial = r.serial := by
  induction queue generalizing r with
  | nil => rfl
  | cons item rest ih =>
      rcases item with ⟨hosted, key, file⟩
      unfold Runtime.feed
      cases Async.run (publishEntry ep hosted key file) r.kernel with
      | mk k paused =>
          cases paused with
          | returned value => exact ih _
          | threw error => rfl
          | waiting question next => rfl

theorem ended_serial (r : Runtime) (ok : Bool) (role : Role) :
    (r.ended ok role).serial = r.serial := by
  cases role with
  | entry ep =>
      unfold Runtime.ended
      dsimp only
      split_ifs
      · rfl
      · exact feed_serial ep r.queue r
      · rfl
  | job ep => rfl
  | recheck => rfl
  | mutation => rfl

theorem runTask_serial (r : Runtime) (role : Role) (x : Prog Unit) :
    (r.runTask role x).serial = r.serial := by
  unfold Runtime.runTask
  cases Async.run x r.kernel with
  | mk k paused =>
      cases paused with
      | returned value => exact ended_serial _ true role
      | threw error => exact ended_serial _ false role
      | waiting question next => rfl

theorem startWorkers_serial (ep : EpochRef) (n : Nat) (r : Runtime) :
    (Runtime.startWorkers ep n r).serial = r.serial := by
  induction n generalizing r with
  | zero => rfl
  | succ n ih =>
      unfold Runtime.startWorkers
      rw [ih]
      split_ifs
      · rfl
      · exact feed_serial ep r.queue r

theorem startJobs_serial (ep : EpochRef) (events : List (HostedPlace × Key × Change))
    (r : Runtime) : (events.foldl (Runtime.startJob ep) r).serial = r.serial := by
  induction events generalizing r with
  | nil => rfl
  | cons event rest ih =>
      rw [List.foldl_cons, ih]
      unfold Runtime.startJob
      split_ifs
      · exact runTask_serial r _ _
      · rfl

theorem serialTurn_serial (r : Runtime) (task : Serial) (rest : List Serial) :
    (r.serialTurn task rest).serial = rest := by
  unfold Runtime.serialTurn
  dsimp only
  split_ifs
  · cases task with
    | epoch events => exact startJobs_serial _ events _
    | recheck hosted key => exact runTask_serial _ _ _
  · rfl

/-!
# What holds in a run
-/

/-- The places {lit}`initialize` still has to do, and what it scanned. -/
def Init.Fits (config : Config) (strict : Bool) (d : Disk) : Init -> Prop
  | Init.scanning _ hosted rest =>
      hosted ∈ config.places ∧ forall place, place ∈ rest -> place ∈ config.places
  | Init.originated _ hosted rest files =>
      hosted ∈ config.places ∧ (forall place, place ∈ rest -> place ∈ config.places) ∧
        forall scanned, files = some scanned -> forall file, file ∈ scanned ->
          hosted.fromDisk = true -> d.Admits strict hosted file.1
  | Init.publishing _ rest => forall place, place ∈ rest -> place ∈ config.places
  | _ => True

structure Runtime.Fits (config : Config) (strict : Bool) (d : Disk) (r : Runtime) : Prop where
  recorded : r.kernel.Recorded
  knows : r.kernel.Knows config
  serial : forall task, task ∈ r.serial -> task.Known config
  init : r.init.Fits config strict d
  underway : r.init.Underway -> r.kernel.state = KernelState.initializing
  fresh : r.kernel.state = KernelState.new -> forall id, r.tasks.get id = none
  sound : r.Sound (watching config strict d r.init.Underway)

/-- What a step took through the pipeline is fine. -/
def Takes (config : Config) (strict : Bool) (d : Disk) (k k' : Kernel) : Prop :=
  exists more, k'.stored = more ++ k.stored ∧
    forall source, source ∈ more -> Fine config strict d source

theorem Takes.of_same {k k' : Kernel} (h : k'.stored = k.stored) :
    Takes config strict d k k' := by
  rw [Takes, h]
  exact ⟨[], rfl, fun _ hmem => by cases hmem⟩

theorem Takes.trans {k k' k'' : Kernel} (h : Takes config strict d k k')
    (h' : Takes config strict d k' k'') : Takes config strict d k k'' := by
  rcases h with ⟨more, heq, hmore⟩
  rcases h' with ⟨more', heq', hmore'⟩
  refine ⟨more' ++ more, ?_, ?_⟩
  · rw [heq', heq, List.append_assoc]
  · intro source hmem
    rcases List.mem_append.mp hmem with hfirst | hlast
    · exact hmore' source hfirst
    · exact hmore source hlast

/-- A runtime that fits, and took only what is fine. -/
def Runtime.Goes (config : Config) (strict : Bool) (d : Disk) (r r' : Runtime) : Prop :=
  Takes config strict d r.kernel r'.kernel ∧ r'.Fits config strict d

theorem Runtime.Fits.moves {r r' : Runtime} (h : r.Fits config strict d)
    (hmoves : r.Moves (watching config strict d r.init.Underway) r')
    (hserial : forall task, task ∈ r'.serial -> task.Known config)
    (hfresh : r.kernel.state = KernelState.new -> forall id, r'.tasks.get id = none) :
    r.Goes config strict d r' := by
  have hgrows : Grows config strict d r.kernel r'.kernel := hmoves.kernel
  constructor
  · exact hgrows.stored
  · constructor
    · exact hgrows.recorded h.recorded
    · exact hgrows.rechecks h.knows
    · exact hserial
    · rw [hmoves.init]
      exact h.init
    · rw [hmoves.init, hgrows.state]
      exact h.underway
    · rw [hgrows.state]
      exact hfresh
    · rw [hmoves.init]
      exact hmoves.sound

/-- A runtime with nothing in flight. -/
theorem Runtime.Sound.of_empty {c : Async.Contract Ask.reply Kernel} {r : Runtime}
    (htasks : forall id, r.tasks.get id = none) (hqueue : r.queue = []) : r.Sound c := by
  constructor
  · intro id task hget
    rw [htasks id] at hget
    cases hget
  · intro item hmem
    rw [hqueue] at hmem
    cases hmem

theorem Publishes.scanned {hosted : HostedPlace} {key : Key} {scanning scanning' : Prop}
    (h : Publishes (watching config strict d scanning) hosted key) :
    Publishes (watching config strict d scanning') hosted key :=
  ⟨h.stage, h.map, h.track, h.recheck⟩

/-- While the places are scanned, nothing in flight asks what is tracked. -/
theorem Runtime.Sound.of_scanning {r r' : Runtime} {scanning scanning' : Prop}
    (h : r.Sound (watching config strict d scanning)) (hscanning : scanning)
    (htasks : r'.tasks = r.tasks) (hqueue : r'.queue = r.queue) :
    r'.Sound (watching config strict d scanning') := by
  constructor
  · rw [htasks]
    intro id task hget answer k _ hanswer
    have hends : Async.Ends (watching config strict d scanning) (fun _ _ => True)
        (fun _ _ => True) (task.next answer) k k :=
      h.tasks id task hget answer k (Or.inl hscanning) hanswer
    refine Async.ends_mono ?_ ?_ ?_ hends
    · exact fun _ _ hguar => hguar
    · exact fun _ _ _ => Or.inl hscanning
    · exact fun _ _ _ h => h
  · rw [hqueue]
    intro item hmem
    exact (h.queue item hmem).scanned

/-!
# Initialization
-/

/-- What {lit}`initialize` needs of a runtime to go on with. -/
structure Runtime.Scans (config : Config) (strict : Bool) (d : Disk) (r : Runtime) : Prop where
  recorded : r.kernel.Recorded
  knows : r.kernel.Knows config
  serial : forall task, task ∈ r.serial -> task.Known config
  state : r.kernel.state = KernelState.initializing
  sound : r.Sound (watching config strict d True)

theorem Runtime.Fits.scans {r : Runtime} (h : r.Fits config strict d)
    (hinit : r.init.Underway) : r.Scans config strict d :=
  ⟨h.recorded, h.knows, h.serial, h.underway hinit,
    h.sound.of_scanning hinit rfl rfl⟩

theorem Runtime.Scans.fits {r : Runtime} (h : r.Scans config strict d) {init : Init}
    (hinit : init.Fits config strict d) :
    Runtime.Fits config strict d { r with init := init } := by
  constructor
  · exact h.recorded
  · exact h.knows
  · exact h.serial
  · exact hinit
  · intro _
    exact h.state
  · intro hnew
    cases h.state.symm.trans hnew
  · exact h.sound.of_scanning trivial rfl rfl

theorem startOrigin_fits {hosted : HostedPlace} {rest : List HostedPlace} (hmem : hosted ∈ config.places)
    (hrest : forall place, place ∈ rest -> place ∈ config.places) (ep : EpochRef) :
    (Runtime.startOrigin config ep hosted rest).Fits config strict d := by
  unfold Runtime.startOrigin
  split_ifs with hsea hplain
  · refine ⟨hmem, hrest, ?_⟩
    intro scanned _ file _ hdisk
    unfold HostedPlace.fromDisk at hdisk
    simp only [hsea, ne_eq, not_true_eq_false, decide_false, Bool.and_false, Bool.false_and,
      Bool.false_eq_true] at hdisk
  · refine ⟨hmem, hrest, ?_⟩
    intro scanned hscanned
    cases hscanned
  · exact ⟨hmem, hrest⟩

theorem Runtime.Scans.settles {r : Runtime} (h : r.Scans config strict d) {k : Kernel}
    {init : Init} (hinit : init = Init.resolved ∨ init = Init.rejected) (hrecorded : k.Recorded)
    (hknows : k.Knows config) (hstate : k.state ≠ KernelState.new) :
    Runtime.Fits config strict d { r.setKernel k with init := init } := by
  constructor
  · exact hrecorded
  · exact hknows
  · exact h.serial
  · rcases hinit with hresolved | hrejected
    · rw [hresolved]
      exact trivial
    · rw [hrejected]
      exact trivial
  · intro hunderway
    rcases hinit with hresolved | hrejected
    · rw [hresolved] at hunderway
      exact hunderway.elim
    · rw [hrejected] at hunderway
      exact hunderway.elim
  · intro hnew
    exact absurd hnew hstate
  · exact h.sound.of_scanning trivial rfl rfl

theorem close_recorded {k : Kernel} (h : k.Recorded) : k.close.Recorded := by
  constructor
  · intro name key hhas
    cases hhas
  · intro index hindex
    cases hindex
  · exact h.staged

theorem close_knows (k : Kernel) : k.close.Knows config := by
  intro name key hosted hget
  cases hget

theorem failInit_goes {r : Runtime} (h : r.Scans config strict d) :
    r.Goes config strict d r.failInit := by
  constructor
  · exact Takes.of_same rfl
  · exact h.settles (Or.inr rfl) (close_recorded h.recorded) (close_knows r.kernel)
      (by intro hclosed; cases hclosed)

/-- A runtime that goes on from another has taken what both took. -/
theorem Runtime.Goes.after {r r' r'' : Runtime} (h : Takes config strict d r.kernel r'.kernel)
    (h' : r'.Goes config strict d r'') : r.Goes config strict d r'' := ⟨h.trans h'.1, h'.2⟩

theorem watch_same (config : Config) (r : Runtime) :
    exists watcher, r.watch config = r.setKernel { r.kernel with watcher := watcher } := by
  unfold Runtime.watch
  split_ifs
  · exact ⟨true, rfl⟩
  · exact ⟨r.kernel.watcher, rfl⟩

theorem flushed_scans {r : Runtime} (h : r.Scans config strict d) {k : Kernel}
    (hk : Grows config strict d r.kernel k) : (r.setKernel k).Scans config strict d := by
  have hc : (watching config strict d True).Shared := watching_shared
  constructor
  · exact hk.recorded h.recorded
  · exact hk.rechecks h.knows
  · exact h.serial
  · exact hk.state.trans h.state
  · exact (Runtime.Moves.setKernel hc h.sound hk).sound

theorem finishInit_goes {r : Runtime} (h : r.Scans config strict d) (ep : EpochRef) :
    r.Goes config strict d (r.finishInit config ep) := by
  have hc : (watching config strict d True).Shared := watching_shared
  have hrun := run_keeps ((keeps_flush hc watching_commits ep).ends hc r.kernel)
  unfold Runtime.finishInit
  revert hrun
  cases Async.run (flush ep) r.kernel with
  | mk k paused =>
      intro hrun
      cases paused with
      | threw error =>
          have hk : Grows config strict d r.kernel k := hrun
          have hset : Takes config strict d r.kernel (r.setKernel k).kernel := hk.stored
          exact Runtime.Goes.after hset (failInit_goes (flushed_scans h hk))
      | waiting question next =>
          have hk : Grows config strict d r.kernel k := hrun.1
          have hset : Takes config strict d r.kernel (r.setKernel k).kernel := hk.stored
          exact Runtime.Goes.after hset (failInit_goes (flushed_scans h hk))
      | returned value =>
          have hk : Grows config strict d r.kernel k := hrun
          have hscans := flushed_scans h hk
          have hready : forall watcher, r.Goes config strict d
              { r.setKernel { k with state := KernelState.ready, watcher := watcher } with
                init := Init.resolved } := by
            intro watcher
            constructor
            · exact hk.stored
            · have hrecorded : Kernel.Recorded
                  { k with state := KernelState.ready, watcher := watcher } :=
                ⟨hscans.recorded.files, hscans.recorded.index, hscans.recorded.staged⟩
              exact h.settles (Or.inl rfl) hrecorded hscans.knows (by intro hnew; cases hnew)
          dsimp only
          split_ifs
          · rcases watch_same config
              { r.setKernel { k with state := KernelState.ready } with init := Init.resolved } with
              ⟨watcher, heq⟩
            rw [heq]
            exact hready watcher
          · exact hready k.watcher

theorem nextPlace_goes {r : Runtime} (h : r.Scans config strict d) (ep : EpochRef)
    {rest : List HostedPlace} (hrest : forall place, place ∈ rest -> place ∈ config.places) :
    r.Goes config strict d (r.nextPlace config ep rest) := by
  cases rest with
  | nil => exact finishInit_goes h ep
  | cons hosted rest =>
      rcases List.forall_mem_cons.mp hrest with ⟨hmem, hothers⟩
      constructor
      · exact Takes.of_same rfl
      · exact h.fits (startOrigin_fits hmem hothers ep)

theorem initKernel_goes {r : Runtime} (h : r.Fits config strict d)
    (hnew : r.kernel.state = KernelState.new) :
    r.Goes config strict d (r.initKernel config) := by
  have hcommits : Commits (watching config strict d True) := watching_commits
  have hrecorded : Kernel.Recorded
      { r.kernel with
        state := KernelState.initializing
        cache := some (fun _ => PlaceFiles.empty) } := by
    constructor
    · exact h.recorded.files
    · intro index hindex name key hhas
      cases hindex
      cases hhas
    · exact h.recorded.staged
  have hopened : Grows config strict d
      { r.kernel with
        state := KernelState.initializing
        cache := some (fun _ => PlaceFiles.empty) }
      (Kernel.openEpoch
        { r.kernel with
          state := KernelState.initializing
          cache := some (fun _ => PlaceFiles.empty) }) :=
    hcommits.openEpoch _
  have hscans : (r.setKernel (Kernel.openEpoch
      { r.kernel with
        state := KernelState.initializing
        cache := some (fun _ => PlaceFiles.empty) })).Scans config strict d := by
    constructor
    · exact hopened.recorded hrecorded
    · exact h.knows
    · exact h.serial
    · rfl
    · constructor
      · intro id task hget
        cases (h.fresh hnew id).symm.trans hget
      · intro item hmem
        exact (h.sound.queue item hmem).scanned
  have htaken : Takes config strict d r.kernel (r.setKernel (Kernel.openEpoch
      { r.kernel with
        state := KernelState.initializing
        cache := some (fun _ => PlaceFiles.empty) })).kernel := Takes.of_same rfl
  exact Runtime.Goes.after htaken (nextPlace_goes hscans _ (fun _ hmem => hmem))

theorem scanned_goes {r : Runtime} (h : r.Fits config strict d) {ep : EpochRef}
    {hosted : HostedPlace} {rest : List HostedPlace}
    (hinit : r.init = Init.scanning ep hosted rest) :
    r.Goes config strict d (r.scanned ep hosted rest (d.scan strict hosted [])) := by
  have hscans := h.scans (by rw [hinit]; exact trivial)
  have hfits := h.init
  rw [hinit] at hfits
  constructor
  · exact Takes.of_same rfl
  · apply Runtime.Scans.fits
    · constructor
      · exact ⟨h.recorded.files, h.recorded.index, h.recorded.staged⟩
      · exact h.knows
      · exact h.serial
      · exact hscans.state
      · exact hscans.sound.of_scanning trivial rfl rfl
    · refine ⟨hfits.1, hfits.2, ?_⟩
      intro scanned hscanned file hfile _
      cases hscanned
      exact Disk.scan_root_admits hfile

theorem originated_goes {r : Runtime} (h : r.Fits config strict d) {ep : EpochRef}
    {hosted : HostedPlace} {rest : List HostedPlace} {files : Option (List (Key × FileInput))}
    (hinit : r.init = Init.originated ep hosted rest files) :
    r.Goes config strict d (r.originated config ep hosted rest files) := by
  have hunderway : r.init.Underway := by
    rw [hinit]
    exact trivial
  have hscans := h.scans hunderway
  have hfits := h.init
  rw [hinit] at hfits
  cases files with
  | none => exact nextPlace_goes hscans ep hfits.2.1
  | some files =>
      have hc : (watching config strict d True).Shared := watching_shared
      have hmoves := Runtime.Moves.publishAll hc config ep hscans.sound
        (fun file hmem => watching_publishes hfits.1 (hfits.2.2 files rfl file hmem))
      have hgrows : Grows config strict d r.kernel
          (Runtime.publishAll config ep hosted files r).kernel := hmoves.kernel
      constructor
      · exact hgrows.stored
      · apply Runtime.Scans.fits
        · constructor
          · exact hgrows.recorded h.recorded
          · exact hgrows.rechecks h.knows
          · intro task hmem
            unfold Runtime.publishAll at hmem
            rw [startWorkers_serial] at hmem
            exact h.serial task hmem
          · exact hgrows.state.trans hscans.state
          · exact hmoves.sound
        · exact hfits.2.1

/-!
# Steps
-/

/-- Every source read was one the scanner admits, and the published ones were read. -/
structure World.Kept (config : Config) (strict : Bool) (w : World) : Prop where
  logged : forall source, source ∈ w.runtime.kernel.stored ->
    exists d, (d, source) ∈ w.reads
  fine : forall d source, (d, source) ∈ w.reads -> Fine config strict d source
  raised : forall event, event ∈ w.raised -> Known config event.1 event.2.1
  queue : forall entry, entry ∈ w.queue.entries -> Known config entry.2.1 entry.1.2
  runtime : w.runtime.Fits config strict w.disk

theorem World.Kept.advance {w : World} (h : w.Kept config strict) {r : Runtime}
    (hgoes : w.runtime.Goes config strict w.disk r) : (w.advance r).Kept config strict := by
  rcases hgoes with ⟨⟨more, hstored, hmore⟩, hfits⟩
  have hnew : r.kernel.stored.take
      (r.kernel.stored.length - w.runtime.kernel.stored.length) = more := by
    rw [hstored, List.length_append, Nat.add_sub_cancel, List.take_left]
  have hreads : (w.advance r).reads = more.map (fun source => (w.disk, source)) ++ w.reads := by
    unfold World.advance
    dsimp only
    rw [hnew]
  constructor
  · intro source hmem
    rw [hreads]
    have hmem' : source ∈ r.kernel.stored := hmem
    rw [hstored] at hmem'
    rcases List.mem_append.mp hmem' with hfirst | hlast
    · exact ⟨w.disk, List.mem_append_left _ (List.mem_map.mpr ⟨source, hfirst, rfl⟩)⟩
    · rcases h.logged source hlast with ⟨d, hd⟩
      exact ⟨d, List.mem_append_right _ hd⟩
  · intro d source hmem
    rw [hreads] at hmem
    rcases List.mem_append.mp hmem with hfirst | hlast
    · rcases List.mem_map.mp hfirst with ⟨taken, hin, heq⟩
      cases heq
      exact hmore _ hin
    · exact h.fine d source hlast
  · exact h.raised
  · exact h.queue
  · exact hfits

theorem new_kept (d : Disk) : (World.new d).Kept config strict := by
  constructor
  · intro source hmem
    cases hmem
  · intro d' source hmem
    cases hmem
  · intro event hmem
    cases hmem
  · intro entry hmem
    cases hmem
  · constructor
    · constructor
      · intro name key hhas
        cases hhas
      · intro index hindex
        cases hindex
      · intro ep name key file hget
        cases hget
    · intro name key hosted hget
      cases hget
    · intro task hmem
      cases hmem
    · exact trivial
    · intro hunderway
      exact hunderway.elim
    · intro _ id
      rfl
    · exact Runtime.Sound.of_empty (fun _ => rfl) rfl

/-- One step, when the task whose turn it is meets no link the scanner would refuse. -/
theorem step_keeps {w w' : World} {turn : Option Serial}
    (hstep : World.Step config strict w turn w')
    (hright : forall task, turn = some task -> task.Rightly strict w.disk w.runtime.kernel)
    (h : w.Kept config strict) : w'.Kept config strict := by
  have hfits := h.runtime
  have hc : (watching config strict w.disk w.runtime.init.Underway).Shared := watching_shared
  cases hstep with
  | change d hquiet =>
      constructor
      · exact h.logged
      · exact h.fine
      · exact h.raised
      · exact h.queue
      · constructor
        · exact hfits.recorded
        · exact hfits.knows
        · exact hfits.serial
        · show w.runtime.init.Fits config strict d
          rcases hquiet.init with hidle | hresolved | hrejected
          · rw [hidle]
            exact trivial
          · rw [hresolved]
            exact trivial
          · rw [hrejected]
            exact trivial
        · exact hfits.underway
        · exact hfits.fresh
        · exact Runtime.Sound.of_empty
            (fun _ => OrderedMap.get_eq_none_of_size_zero hquiet.tasks _) hquiet.queue
  | raise hosted names event hwatcher hmem hsources hplain hclassify =>
      constructor
      · exact h.logged
      · exact h.fine
      · intro raised hin
        rcases List.mem_append.mp hin with hold | hnew
        · exact h.raised raised hold
        · rw [List.mem_singleton.mp hnew]
          exact ⟨hmem, fun _ => ⟨names, hplain, rfl⟩⟩
      · exact h.queue
      · exact hfits
  | enqueue before after hosted key event heq =>
      constructor
      · exact h.logged
      · exact h.fine
      · intro raised hin
        apply h.raised
        rw [heq]
        rcases List.mem_append.mp hin with hfirst | hlast
        · exact List.mem_append_left _ hfirst
        · exact List.mem_append_right _ (List.mem_cons_of_mem _ hlast)
      · intro entry hin
        have hget := OrderedMap.mem_entries_iff.mp hin
        dsimp only at hget
        rw [OrderedMap.get_set] at hget
        by_cases hkey : entry.1 = (hosted.name, key)
        · rw [if_pos hkey] at hget
          have hraised : (hosted, key, event) ∈ w.raised := by
            rw [heq]
            exact List.mem_append_right _ List.mem_cons_self
          rw [← Option.some.inj hget, hkey]
          exact h.raised _ hraised
        · rw [if_neg hkey] at hget
          exact h.queue entry (OrderedMap.mem_entries_iff.mpr hget)
      · exact hfits
  | flush hwatcher hsize =>
      constructor
      · exact h.logged
      · exact h.fine
      · exact h.raised
      · intro entry hin
        cases hin
      · constructor
        · exact hfits.recorded
        · exact hfits.knows
        · intro task hin
          rcases List.mem_append.mp hin with hold | hnew
          · exact hfits.serial task hold
          · rw [List.mem_singleton.mp hnew]
            intro event hevent
            rcases List.mem_map.mp hevent with ⟨entry, hentry, heq⟩
            rw [← heq]
            exact h.queue entry hentry
        · exact hfits.init
        · exact hfits.underway
        · exact hfits.fresh
        · exact ⟨hfits.sound.tasks, hfits.sound.queue⟩
  | initKernel hnew => exact h.advance (initKernel_goes hfits hnew)
  | scanned ep hosted rest hinit => exact h.advance (scanned_goes hfits hinit)
  | originated ep hosted rest files hinit => exact h.advance (originated_goes hfits hinit)
  | published ep rest hinit hfailed hpending =>
      have hplaces := hfits.init
      rw [hinit] at hplaces
      have hunderway : w.runtime.init.Underway := by
        rw [hinit]
        exact trivial
      exact h.advance (nextPlace_goes (hfits.scans hunderway) ep hplaces)
  | failed ep rest hinit hfailed =>
      have hunderway : w.runtime.init.Underway := by
        rw [hinit]
        exact trivial
      exact h.advance (failInit_goes (hfits.scans hunderway))
  | resume id task answer hget hanswer =>
      apply h.advance
      apply hfits.moves (Runtime.Moves.resume hc hfits.sound hget hanswer)
      · intro queued hmem
        unfold Runtime.resume at hmem
        rw [runTask_serial] at hmem
        exact hfits.serial queued hmem
      · intro hnew
        cases (hfits.fresh hnew id).symm.trans hget
  | fire hosted key hget =>
      apply h.advance
      apply hfits.moves (Runtime.Moves.fire hc hfits.sound (watching_handles hosted) key)
      · intro queued hmem
        rcases List.mem_append.mp hmem with hold | hnew
        · exact hfits.serial queued hold
        · rw [List.mem_singleton.mp hnew]
          exact hfits.knows hosted.name key hosted hget
      · exact hfits.fresh
  | serial task rest hrunning hserial =>
      have hknown : forall queued, queued ∈ task :: rest -> queued.Known config := by
        intro queued hmem
        apply hfits.serial
        rw [hserial]
        exact hmem
      have hrest : forall queued, queued ∈ (w.runtime.serialTurn task rest).serial ->
          queued.Known config := by
        intro queued hmem
        rw [serialTurn_serial] at hmem
        exact hknown queued (List.mem_cons_of_mem _ hmem)
      apply h.advance
      by_cases hready : w.runtime.kernel.state = KernelState.ready
      · have hsettled : ¬ w.runtime.init.Underway := by
          intro hunderway
          cases hready.symm.trans (hfits.underway hunderway)
        have hallowed : task.Allowed
            (watching config strict w.disk w.runtime.init.Underway)
            (Stays config w.disk w.runtime.kernel) :=
          watching_allowed (hknown task List.mem_cons_self) (hright task rfl)
        apply hfits.moves (Runtime.Moves.serialTurn hc (watching_stable hsettled _)
          watching_commits hfits.sound (Stays.refl _) rest hallowed) hrest
        intro hnew
        cases hready.symm.trans hnew
      · have hturned : w.runtime.serialTurn task rest = { w.runtime with serial := rest } :=
          if_neg hready
        rw [hturned] at hrest ⊢
        apply hfits.moves _ hrest hfits.fresh
        exact Runtime.Moves.of_same hc hfits.sound rfl rfl rfl (fun _ hmem => hmem)
  | endEpoch ep hrunning hpending =>
      apply h.advance
      exact hfits.moves (Runtime.Moves.endEpoch hc watching_commits hfits.sound ep) hfits.serial
        hfits.fresh

end SharedMemoryFs.Lifecycle
