import SharedMemoryFs.Lifecycle.Closing

/-!
# Closed is final

Over all runs: what a step of the event loop may change once the kernel is
closed, and the one step of {lit}`initialize` that no check of the kernel guards.
-/

namespace SharedMemoryFs.Lifecycle

open Foundation

/-!
# The end of initialization
-/

/-- {lit}`initialize` has neither returned nor thrown. -/
def Init.Underway : Init -> Prop
  | Init.scanning _ _ _ => True
  | Init.originated _ _ _ _ => True
  | Init.publishing _ _ => True
  | _ => False

/-- The last place is done: a place without a published origin has nothing left
to wait for, and every publication of a published one has ended. -/
inductive Init.LastPlaceDone : Init -> Prop where
  | originated (ep : EpochRef) (hosted : HostedPlace) :
      LastPlaceDone (Init.originated ep hosted [] none)
  | published (ep : EpochRef) : LastPlaceDone (Init.publishing ep [])

/-- The step takes {lit}`initialize` past its last place on a closed kernel. -/
structure Runtime.Overtaken (r : Runtime) (label : Label) : Prop where
  label : label = Label.place
  closed : r.kernel.state = KernelState.closed
  done : r.init.LastPlaceDone

theorem run_flush_closed {k : Kernel} (ep : EpochRef)
    (h : k.state = KernelState.closed) :
    Async.run (flush ep) k = (k, Paused.returned ()) := by
  show Async.run (if k.state = KernelState.closed then Async.done () else _) k = _
  rw [if_pos h]
  rfl

theorem watch_state (config : Config) (r : Runtime) :
    (r.watch config).kernel.state = r.kernel.state := by
  unfold Runtime.watch
  split_ifs
  · rfl
  · rfl

/-- Nothing after the last place asks whether the kernel was closed. -/
theorem finishInit_ready {config : Config} {r : Runtime} (ep : EpochRef)
    (h : r.kernel.state = KernelState.closed) :
    (r.finishInit config ep).kernel.state = KernelState.ready := by
  unfold Runtime.finishInit
  rw [run_flush_closed ep h]
  simp only
  split_ifs
  · exact watch_state config _
  · rfl

/-- What {lit}`initialize` does when it is resumed with a place left. -/
theorem nextPlace_cons (config : Config) (ep : EpochRef) (r : Runtime) (hosted : HostedPlace)
    (rest : List HostedPlace) :
    (r.nextPlace config ep (hosted :: rest)).kernel = r.kernel ∧
      (r.nextPlace config ep (hosted :: rest)).tasks = r.tasks ∧
        (r.nextPlace config ep (hosted :: rest)).init.Underway := by
  refine ⟨rfl, rfl, ?_⟩
  show (Runtime.startOrigin config ep hosted rest).Underway
  unfold Runtime.startOrigin
  split_ifs
  · exact trivial
  · exact trivial
  · exact trivial

/-!
# One step
-/

/-- Every function in flight keeps its contract, and a closed kernel is as
{lit}`close` left it. -/
structure Runtime.Kept (r : Runtime) : Prop where
  sound : r.Sound closing
  closed : r.kernel.state = KernelState.closed -> r.kernel.Closed

/-- What is final: the state, the index, the projections, the watcher, the timers
and the updates posted, and that {lit}`initialize` does not resolve. -/
structure Final (r r' : Runtime) : Prop where
  state : r'.kernel.state = KernelState.closed
  cache : r'.kernel.cache = r.kernel.cache
  files : r'.kernel.files = r.kernel.files
  watcher : r'.kernel.watcher = r.kernel.watcher
  rechecks : r'.kernel.rechecks = r.kernel.rechecks
  posted : r'.kernel.posted = r.kernel.posted
  overtaken : r.init.Underway -> r'.init.Underway ∨ r'.init = Init.rejected
  settled : r.init = Init.rejected -> r'.init = Init.rejected

theorem Final.of_closed {r r' : Runtime} (h : r.kernel.Closed) (h' : r'.kernel.Closed)
    (hposted : r'.kernel.posted = r.kernel.posted)
    (hinit : r.init.Underway -> r'.init.Underway ∨ r'.init = Init.rejected)
    (hsettled : r.init = Init.rejected -> r'.init = Init.rejected) :
    Final r r' := by
  constructor
  · exact h'.state
  · rw [h.cache, h'.cache]
  · rw [h.files, h'.files]
  · rw [h.watcher, h'.watcher]
  · rw [h.rechecks, h'.rechecks]
  · exact hposted
  · exact hinit
  · exact hsettled

theorem Final.refl {r : Runtime} (h : r.kernel.state = KernelState.closed) : Final r r :=
  ⟨h, rfl, rfl, rfl, rfl, rfl, fun hinit => Or.inl hinit, fun hinit => hinit⟩

theorem Final.trans {r r' r'' : Runtime} (h : Final r r') (h' : Final r' r'') :
    Final r r'' := by
  constructor
  · exact h'.state
  · exact h'.cache.trans h.cache
  · exact h'.files.trans h.files
  · exact h'.watcher.trans h.watcher
  · exact h'.rechecks.trans h.rechecks
  · exact h'.posted.trans h.posted
  · intro hinit
    rcases h.overtaken hinit with hunderway | hrejected
    · exact h'.overtaken hunderway
    · exact Or.inr (h'.settled hrejected)
  · intro hinit
    exact h'.settled (h.settled hinit)

theorem moves_kept {r r' : Runtime} (h : r.Moves closing r') (hr : r.Kept) : r'.Kept := by
  constructor
  · exact h.sound
  · intro hclosed
    rw [h.kernel.state] at hclosed
    exact (h.kernel.closed (hr.closed hclosed)).1

theorem moves_final {r r' : Runtime} (h : r.Moves closing r') (hr : r.Kept)
    (hclosed : r.kernel.state = KernelState.closed) : Final r r' := by
  have hbefore := hr.closed hclosed
  rcases h.kernel.closed hbefore with ⟨hafter, hposted⟩
  apply Final.of_closed hbefore hafter hposted
  · intro hinit
    rw [h.init]
    exact Or.inl hinit
  · intro hinit
    rw [h.init]
    exact hinit

/-- A kernel that is not closed, or was just closed, has kept what it must. -/
theorem Runtime.Kept.of_tasks {r r' : Runtime} (hr : r.Kept) (htasks : r'.tasks = r.tasks)
    (hclosed : r'.kernel.state = KernelState.closed -> r'.kernel.Closed) : r'.Kept := by
  constructor
  · constructor
    · rw [htasks]
      exact hr.sound.tasks
    · intro item _
      exact closing_publishes item.1 item.2.1
  · exact hclosed

theorem close_kept {r : Runtime} (hr : r.Kept) : r.close.Kept :=
  hr.of_tasks rfl (fun _ => Kernel.close_closed r.kernel)

theorem failInit_kept {r : Runtime} (hr : r.Kept) : r.failInit.Kept :=
  hr.of_tasks rfl (fun _ => Kernel.close_closed r.kernel)

theorem watch_tasks (config : Config) (r : Runtime) :
    (r.watch config).tasks = r.tasks := by
  unfold Runtime.watch
  split_ifs
  · rfl
  · rfl

theorem finishInit_kept {config : Config} {r : Runtime} (hr : r.Kept) (ep : EpochRef) :
    (r.finishInit config ep).Kept := by
  unfold Runtime.finishInit
  cases Async.run (flush ep) r.kernel with
  | mk k paused =>
      have hset : (r.setKernel k).failInit.Kept :=
        hr.of_tasks rfl (fun _ => Kernel.close_closed k)
      cases paused with
      | returned value =>
          simp only
          split_ifs
          · apply hr.of_tasks
            · exact watch_tasks config _
            · intro hclosed
              rw [watch_state] at hclosed
              cases hclosed
          · apply hr.of_tasks
            · rfl
            · intro hclosed
              cases hclosed
      | threw error => exact hset
      | waiting question next => exact hset

theorem nextPlace_kept {config : Config} {r : Runtime} (hr : r.Kept) (ep : EpochRef)
    (rest : List HostedPlace) : (r.nextPlace config ep rest).Kept := by
  cases rest with
  | nil => exact finishInit_kept hr ep
  | cons hosted rest => exact hr.of_tasks rfl hr.closed

theorem publishAll_moves (config : Config) (ep : EpochRef) (hosted : HostedPlace)
    (files : List (Key × FileInput)) {r : Runtime} (hr : r.Kept) :
    r.Moves closing (r.publishAll config ep hosted files) :=
  Runtime.Moves.publishAll closing_shared config ep hr.sound
    (fun file _ => closing_publishes hosted file.1)

theorem publishAll_kept {config : Config} {r : Runtime} (hr : r.Kept) (ep : EpochRef)
    (hosted : HostedPlace) (files : List (Key × FileInput)) (init : Init) :
    Runtime.Kept { r.publishAll config ep hosted files with init := init } :=
  have hkept := moves_kept (publishAll_moves config ep hosted files hr) hr
  hkept.of_tasks rfl hkept.closed

theorem scanned_stays (r : Runtime) (ep : EpochRef) (hosted : HostedPlace)
    (rest : List HostedPlace) (files : List (Key × FileInput)) :
    r.kernel.Stays (r.scanned ep hosted rest files).kernel :=
  Kernel.Stays.of_private rfl rfl rfl rfl rfl rfl

theorem scanned_kept {r : Runtime} (hr : r.Kept) (ep : EpochRef) (hosted : HostedPlace)
    (rest : List HostedPlace) (files : List (Key × FileInput)) :
    (r.scanned ep hosted rest files).Kept :=
  hr.of_tasks rfl
    (fun hclosed => ((scanned_stays r ep hosted rest files).closed (hr.closed hclosed)).1)

/-- Steps other than those of {lit}`initialize` and {lit}`close`. -/
theorem step_cases {config : Config} {r r' : Runtime} {label : Label}
    (h : Step config r label r') (hr : r.Kept) :
    r.Moves closing r' ∨ r' = r.close ∨
      (r.kernel.state = KernelState.new ∧ r' = r.initKernel config) ∨
      (exists ep hosted rest files, r.init = Init.scanning ep hosted rest ∧
        r' = r.scanned ep hosted rest files) ∨
      (exists ep hosted rest files, r.init = Init.originated ep hosted rest files ∧
        label = Label.place ∧ r' = r.originated config ep hosted rest files) ∨
      (exists ep rest, r.init = Init.publishing ep rest ∧
        label = Label.place ∧ r' = r.nextPlace config ep rest) ∨
      (exists ep rest, r.init = Init.publishing ep rest ∧ r' = r.failInit) := by
  cases h with
  | initKernel hnew => exact Or.inr (Or.inr (Or.inl ⟨hnew, rfl⟩))
  | scanned ep hosted rest files hinit =>
      exact Or.inr (Or.inr (Or.inr (Or.inl ⟨ep, hosted, rest, files, hinit, rfl⟩)))
  | originated ep hosted rest files hinit =>
      exact Or.inr (Or.inr (Or.inr (Or.inr
        (Or.inl ⟨ep, hosted, rest, files, hinit, rfl, rfl⟩))))
  | published ep rest hinit hfailed hpending =>
      exact Or.inr (Or.inr (Or.inr (Or.inr (Or.inr (Or.inl ⟨ep, rest, hinit, rfl, rfl⟩)))))
  | failed ep rest hinit hfailed =>
      exact Or.inr (Or.inr (Or.inr (Or.inr (Or.inr (Or.inr ⟨ep, rest, hinit, rfl⟩)))))
  | resume id task answer hget =>
      exact Or.inl
        (Runtime.Moves.resume closing_shared hr.sound hget trivial)
  | mutate op =>
      left
      unfold Runtime.mutate
      split_ifs
      · exact Runtime.Moves.runTask closing_shared hr.sound _
          ((keeps_virtualOp op).ends closing_shared r.kernel)
      · exact Runtime.Moves.refl closing_shared hr.sound
  | epoch events hwatcher =>
      exact Or.inl (Runtime.Moves.of_same closing_shared hr.sound rfl rfl rfl
        (fun _ hmem => hmem))
  | fire hosted key hget =>
      exact Or.inl (Runtime.Moves.fire closing_shared hr.sound (closing_handles hosted) key)
  | serial task rest hrunning hserial =>
      exact Or.inl (Runtime.Moves.serialTurn closing_shared closing.stable_true closing_commits
        hr.sound trivial rest (closing_allowed task))
  | endEpoch ep hrunning hpending =>
      exact Or.inl (Runtime.Moves.endEpoch closing_shared closing_commits
        hr.sound ep)
  | close => exact Or.inr (Or.inl rfl)

theorem step_kept {config : Config} {r r' : Runtime} {label : Label}
    (h : Step config r label r') (hr : r.Kept) : r'.Kept := by
  rcases step_cases h hr with hmoves | hclose | ⟨hnew, hinit⟩ |
    ⟨ep, hosted, rest, files, hinit, heq⟩ | ⟨ep, hosted, rest, files, hinit, hlabel, heq⟩ |
    ⟨ep, rest, hinit, hlabel, heq⟩ | ⟨ep, rest, hinit, heq⟩
  · exact moves_kept hmoves hr
  · rw [hclose]
    exact close_kept hr
  · rw [hinit]
    apply nextPlace_kept
    apply hr.of_tasks
    · rfl
    · intro hclosed
      cases hclosed
  · rw [heq]
    exact scanned_kept hr ep hosted rest files
  · rw [heq]
    cases files with
    | none => exact nextPlace_kept hr ep rest
    | some files => exact publishAll_kept hr ep hosted files _
  · rw [heq]
    exact nextPlace_kept hr ep rest
  · rw [heq]
    exact failInit_kept hr

theorem reachable_kept {config : Config} {r : Runtime} (h : Reachable config r) : r.Kept := by
  induction h with
  | new =>
      constructor
      · constructor
        · intro id task hget
          cases hget
        · intro item hmem
          cases hmem
      · intro hclosed
        cases hclosed
  | step _ hstep ih => exact step_kept hstep ih

/-- On a closed kernel {lit}`initialize` goes on with the next place, if any. -/
theorem nextPlace_final {config : Config} {r : Runtime} {ep : EpochRef}
    {rest : List HostedPlace} (hclosed : r.kernel.state = KernelState.closed)
    (hunderway : r.init.Underway) (hrest : rest ≠ []) :
    Final r (r.nextPlace config ep rest) := by
  cases rest with
  | nil => exact absurd rfl hrest
  | cons hosted rest =>
      have hnext := nextPlace_cons config ep r hosted rest
      constructor
      · exact hclosed
      · rfl
      · rfl
      · rfl
      · rfl
      · rfl
      · intro _
        exact Or.inl hnext.2.2
      · intro hrejected
        rw [hrejected] at hunderway
        exact hunderway.elim

theorem step_final {config : Config} {r r' : Runtime} {label : Label}
    (h : Step config r label r') (hr : r.Kept)
    (hclosed : r.kernel.state = KernelState.closed) (hahead : ¬ r.Overtaken label) :
    Final r r' := by
  have hbefore := hr.closed hclosed
  rcases step_cases h hr with hmoves | hclose | ⟨hnew, hinit⟩ |
    ⟨ep, hosted, rest, files, hinit, heq⟩ | ⟨ep, hosted, rest, files, hinit, hlabel, heq⟩ |
    ⟨ep, rest, hinit, hlabel, heq⟩ | ⟨ep, rest, hinit, heq⟩
  · exact moves_final hmoves hr hclosed
  · rw [hclose]
    exact Final.of_closed hbefore (Kernel.close_closed r.kernel) rfl
      (fun hinit => Or.inl hinit) (fun hinit => hinit)
  · rw [hclosed] at hnew
    cases hnew
  · have hstays := (scanned_stays r ep hosted rest files).closed hbefore
    rw [heq]
    apply Final.of_closed hbefore hstays.1 hstays.2
    · intro _
      exact Or.inl trivial
    · intro hrejected
      rw [hinit] at hrejected
      cases hrejected
  · have hunderway : r.init.Underway := by
      rw [hinit]
      exact trivial
    rw [heq]
    cases files with
    | none =>
        apply nextPlace_final hclosed hunderway
        intro hrest
        rw [hrest] at hinit
        apply hahead
        exact ⟨hlabel, hclosed, hinit ▸ Init.LastPlaceDone.originated ep hosted⟩
    | some files =>
        have hfinal := moves_final (publishAll_moves config ep hosted files hr) hr hclosed
        constructor
        · exact hfinal.state
        · exact hfinal.cache
        · exact hfinal.files
        · exact hfinal.watcher
        · exact hfinal.rechecks
        · exact hfinal.posted
        · intro _
          exact Or.inl trivial
        · intro hrejected
          rw [hinit] at hrejected
          cases hrejected
  · have hunderway : r.init.Underway := by
      rw [hinit]
      exact trivial
    rw [heq]
    apply nextPlace_final hclosed hunderway
    intro hrest
    rw [hrest] at hinit
    apply hahead
    exact ⟨hlabel, hclosed, hinit ▸ Init.LastPlaceDone.published ep⟩
  · rw [heq]
    exact Final.of_closed hbefore (Kernel.close_closed r.kernel) rfl
      (fun _ => Or.inr rfl) (fun _ => rfl)

/-- The step no check guards makes the kernel ready again. -/
theorem step_overtaken {config : Config} {r r' : Runtime} {label : Label}
    (h : Step config r label r') (hover : r.Overtaken label) :
    r'.kernel.state = KernelState.ready := by
  have hdone := hover.done
  cases h with
  | originated ep hosted rest files hinit =>
      rw [hinit] at hdone
      cases hdone
      exact finishInit_ready ep hover.closed
  | published ep rest hinit hfailed hpending =>
      rw [hinit] at hdone
      cases hdone
      exact finishInit_ready ep hover.closed
  | resume id task answer hget =>
      have hlabel := hover.label
      cases hrole : task.role with
      | entry ep =>
          rw [hrole] at hlabel
          cases hlabel
      | job ep =>
          rw [hrole] at hlabel
          cases hlabel
      | recheck =>
          rw [hrole] at hlabel
          cases hlabel
      | mutation =>
          rw [hrole] at hlabel
          cases hlabel
  | _ => cases hover.label

/-!
# Runs
-/

/-- No step of the run takes {lit}`initialize` past its last place on a closed
kernel. -/
def Guarded : Runtime -> List (Label × Runtime) -> Prop
  | _, [] => True
  | r, (label, r') :: rest => ¬ r.Overtaken label ∧ Guarded r' rest

theorem guarded_of_closed {config : Config} {r : Runtime} {steps : List (Label × Runtime)}
    (hrun : Run config r steps)
    (hstates : forall label r', (label, r') ∈ steps -> r'.kernel.state = KernelState.closed) :
    Guarded r steps := by
  induction hrun with
  | nil => exact trivial
  | @cons r label r' steps hstep _ ih =>
      constructor
      · intro hover
        have hready := step_overtaken hstep hover
        rw [hstates label r' List.mem_cons_self] at hready
        cases hready
      · apply ih
        intro label' r'' hmem
        exact hstates label' r'' (List.mem_cons_of_mem _ hmem)

theorem final_of_guarded {config : Config} {r : Runtime} {steps : List (Label × Runtime)}
    (hr : r.Kept) (hclosed : r.kernel.state = KernelState.closed)
    (hrun : Run config r steps) (hguarded : Guarded r steps) (label : Label) (r' : Runtime)
    (hmem : (label, r') ∈ steps) : Final r r' := by
  induction hrun with
  | nil => cases hmem
  | @cons r first r1 steps hstep _ ih =>
      have hfirst := step_final hstep hr hclosed hguarded.1
      rcases List.mem_cons.mp hmem with heq | hmem
      · cases heq
        exact hfirst
      · exact hfirst.trans (ih (step_kept hstep hr) hfirst.state hguarded.2 hmem)

end SharedMemoryFs.Lifecycle
