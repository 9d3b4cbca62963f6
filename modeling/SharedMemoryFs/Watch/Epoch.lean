import SharedMemoryFs.Watch.Jobs

/-!
# An epoch from its turn to its end

Its jobs run side by side in any order.  What each of them has seen to, and every duty
one of them took, is done when none of them is left.
-/

namespace SharedMemoryFs.Lifecycle

open Foundation

variable {config : Config} {strict : Bool}

/-!
# Jobs in flight
-/

section Flight

variable (c : Async.Contract Ask.reply Kernel) (duty : Async.Duty Kernel) (inv : Kernel -> Prop)

/-- The assertion holds, or some function in flight ends in it. -/
def Runtime.Owes (r : Runtime) (p : Kernel -> Prop) : Prop :=
  p r.kernel ∨ exists id task, r.tasks.get id = some task ∧
    forall answer k, c.rely r.kernel k -> c.answers task.question answer k ->
      Async.Ends c (fun _ => p) (fun _ => p) (task.next answer) k k

/-- Every function in flight keeps to its duties. -/
structure Runtime.Busy (r : Runtime) : Prop where
  inv : inv r.kernel
  fresh : forall id, r.nextTask ≤ id -> r.tasks.get id = none
  tasks : forall id task, r.tasks.get id = some task ->
    forall answer k, c.rely r.kernel k -> c.answers task.question answer k ->
      Async.Serves c duty (fun _ _ => True) (fun _ _ => True) (task.next answer) k k

/-- Whoever took the duty does it. -/
structure Runtime.Serving (r : Runtime) : Prop extends r.Busy c duty inv where
  taken : duty.taken r.kernel -> r.Owes c duty.met

variable {c duty inv}
variable (hc : c.Shared) (hmet : c.Stable duty.met) (hinv : c.Stable inv)

section Owing

variable {p : Kernel -> Prop} (hp : c.Stable p)
include hc hp

/-- What is owed stays so while the kernel changes and no function is resumed. -/
theorem Runtime.Owes.goes {r r' : Runtime} (h : r.Owes c p) (hguar : c.guar r.kernel r'.kernel)
    (htasks : forall id task, r.tasks.get id = some task -> r'.tasks.get id = some task) :
    r'.Owes c p := by
  rcases h with hnow | ⟨id, task, hget, hends⟩
  · exact Or.inl (hp r.kernel r'.kernel hnow (hc.gives _ _ hguar))
  · refine Or.inr ⟨id, task, htasks id task hget, ?_⟩
    intro answer k hrely hanswer
    exact hends answer k (hc.through _ _ _ (hc.gives _ _ hguar) hrely) hanswer

theorem Runtime.Owes.runTask {r : Runtime} (hfresh : r.tasks.get r.nextTask = none)
    {x : Prog Unit} {post : Unit -> Kernel -> Prop} {fail : Fault -> Kernel -> Prop}
    (hx : Async.Serves c duty post fail x r.kernel r.kernel)
    (h : r.Owes c p ∨ Async.Ends c (fun _ => p) (fun _ => p) x r.kernel r.kernel)
    (ep : EpochRef) : (r.runTask (Role.job ep) x).Owes c p := by
  unfold Runtime.runTask
  cases hrun : Async.run x r.kernel with
  | mk k paused =>
      cases paused with
      | returned value =>
          have hguar : c.guar r.kernel k := (Async.serves_returned hx hrun).1
          rcases h with howes | hends
          · have hgoes : Runtime.Owes c (r.setKernel k) p :=
              howes.goes hc hp hguar (fun _ _ hget => hget)
            exact hgoes
          · have hend := Async.meets_run hends
            rw [hrun] at hend
            exact Or.inl hend.2
      | threw error =>
          have hguar : c.guar r.kernel k := (Async.serves_threw hx hrun).1
          rcases h with howes | hends
          · have hgoes : Runtime.Owes c (r.setKernel k) p :=
              howes.goes hc hp hguar (fun _ _ hget => hget)
            exact hgoes
          · have hend := Async.meets_run hends
            rw [hrun] at hend
            exact Or.inl hend.2
      | waiting question next =>
          have hguar : c.guar r.kernel k := (Async.serves_waiting hx hrun).1
          rcases h with howes | hends
          · have hkept : forall id task, r.tasks.get id = some task ->
                ((r.setKernel k).suspend (Role.job ep) question next).tasks.get id = some task := by
              intro id task hget
              have hne : id ≠ r.nextTask := by
                intro heq
                rw [heq, hfresh] at hget
                cases hget
              exact (OrderedMap.get_set_ne _ _ hne).trans hget
            exact howes.goes hc hp hguar hkept
          · have hend := Async.meets_run hends
            rw [hrun] at hend
            refine Or.inr ⟨r.nextTask, ⟨Role.job ep, question, next⟩, ?_, ?_⟩
            · exact OrderedMap.get_set_self _ _ _
            · exact fun answer k' hrely hanswer => hend.2 k' answer hrely hanswer

omit hc hp in
/-- Where nothing is in flight, all that was owed is done. -/
theorem Runtime.Owes.done {r : Runtime} (h : r.Owes c p)
    (hidle : forall id, r.tasks.get id = none) : p r.kernel := by
  rcases h with hnow | ⟨id, task, hget, _⟩
  · exact hnow
  · cases (hidle id).symm.trans hget

end Owing

include hc hinv

theorem Runtime.Busy.goes {r r' : Runtime} (h : r.Busy c duty inv)
    (hguar : c.guar r.kernel r'.kernel)
    (htasks : forall id task, r'.tasks.get id = some task -> r.tasks.get id = some task)
    (hnext : r.nextTask ≤ r'.nextTask) : r'.Busy c duty inv := by
  have hrely := hc.gives _ _ hguar
  constructor
  · exact hinv r.kernel r'.kernel h.inv hrely
  · intro id hid
    cases hget : r'.tasks.get id with
    | none => rfl
    | some task => cases (h.fresh id (Nat.le_trans hnext hid)).symm.trans (htasks id task hget)
  · intro id task hget answer k hlater hanswer
    exact h.tasks id task (htasks id task hget) answer k (hc.through _ _ _ hrely hlater) hanswer

theorem Runtime.Busy.runTask {r : Runtime} (h : r.Busy c duty inv) {x : Prog Unit}
    (hx : Async.Serves c duty (fun _ _ => True) (fun _ _ => True) x r.kernel r.kernel)
    (ep : EpochRef) : (r.runTask (Role.job ep) x).Busy c duty inv ∧
      c.guar r.kernel (r.runTask (Role.job ep) x).kernel := by
  unfold Runtime.runTask
  cases hrun : Async.run x r.kernel with
  | mk k paused =>
      cases paused with
      | returned value =>
          have hguar : c.guar r.kernel k := (Async.serves_returned hx hrun).1
          have hset : Runtime.Busy c duty inv (r.setKernel k) :=
            h.goes hc hinv hguar (fun _ _ hget => hget) (Nat.le_refl _)
          exact ⟨hset, hguar⟩
      | threw error =>
          have hguar : c.guar r.kernel k := (Async.serves_threw hx hrun).1
          have hset : Runtime.Busy c duty inv (r.setKernel k) :=
            h.goes hc hinv hguar (fun _ _ hget => hget) (Nat.le_refl _)
          exact ⟨hset, hguar⟩
      | waiting question next =>
          have hwaiting := Async.serves_waiting hx hrun
          have hguar : c.guar r.kernel k := hwaiting.1
          have hset : Runtime.Busy c duty inv (r.setKernel k) :=
            h.goes hc hinv hguar (fun _ _ hget => hget) (Nat.le_refl _)
          refine ⟨⟨hset.inv, ?_, ?_⟩, hguar⟩
          · intro id hid
            have hlt : r.nextTask < id := hid
            exact (OrderedMap.get_set_ne _ _ (Nat.ne_of_gt hlt)).trans (h.fresh id (Nat.le_of_lt hlt))
          · intro id task hget answer k' hrely hanswer
            have hcases : (r.tasks.set r.nextTask ⟨Role.job ep, question, next⟩).get id =
                some task := hget
            rw [OrderedMap.get_set] at hcases
            split_ifs at hcases
            · cases hcases
              exact (hwaiting.2 k' answer hrely hanswer).1
            · exact hset.tasks id task hcases answer k' hrely hanswer

include hmet

/-- A job that starts or goes on, which keeps to its duties. -/
theorem Runtime.Busy.serving {r : Runtime} (h : r.Busy c duty inv) {x : Prog Unit}
    (hx : Async.Serves c duty (fun _ _ => True) (fun _ _ => True) x r.kernel r.kernel)
    (htaken : duty.taken r.kernel -> r.Owes c duty.met ∨
      Async.Ends c (fun _ => duty.met) (fun _ => duty.met) x r.kernel r.kernel)
    (ep : EpochRef) : (r.runTask (Role.job ep) x).Serving c duty inv := by
  have hold : duty.taken r.kernel -> (r.runTask (Role.job ep) x).Owes c duty.met :=
    fun hbefore => Runtime.Owes.runTask hc hmet (h.fresh _ (Nat.le_refl _)) hx (htaken hbefore) ep
  refine ⟨(h.runTask hc hinv hx ep).1, ?_⟩
  revert hold
  unfold Runtime.runTask
  cases hrun : Async.run x r.kernel with
  | mk k paused =>
      cases paused with
      | returned value =>
          intro hold hafter
          rcases (Async.serves_returned hx hrun).2.1 hafter with hbefore | hdone
          · exact hold hbefore
          · exact Or.inl hdone
      | threw error =>
          intro hold hafter
          rcases (Async.serves_threw hx hrun).2.1 hafter with hbefore | hdone
          · exact hold hbefore
          · exact Or.inl hdone
      | waiting question next =>
          intro hold hafter
          by_cases hbefore : duty.taken r.kernel
          · exact hold hbefore
          · refine Or.inr ⟨r.nextTask, ⟨Role.job ep, question, next⟩, ?_, ?_⟩
            · exact OrderedMap.get_set_self _ _ _
            · intro answer k' hrely hanswer
              have hserves := (Async.serves_waiting hx hrun).2 k' answer hrely hanswer
              rcases hserves.2 hafter with hearlier | hends
              · exact absurd hearlier hbefore
              · apply Async.meets_mono hends
                · exact fun _ _ _ hend => ⟨hend.1, hend.2.2⟩
                · exact fun _ _ _ hend => ⟨hend.1, hend.2.2⟩

theorem Runtime.Serving.resume {r : Runtime} (h : r.Serving c duty inv) {id : Nat}
    {task : Suspended} (hget : r.tasks.get id = some task) {ep : EpochRef}
    (hrole : task.role = Role.job ep) {answer : task.question.reply}
    (hanswer : c.answers task.question answer r.kernel) :
    (r.resume id task answer).Serving c duty inv ∧
      forall p, c.Stable p -> r.Owes c p -> (r.resume id task answer).Owes c p := by
  have hhere : c.rely r.kernel r.kernel := hc.gives _ _ (hc.refl _)
  have hserves := h.tasks id task hget answer r.kernel hhere hanswer
  have hbusy : Runtime.Busy c duty inv { r with tasks := r.tasks.delete id } :=
    h.toBusy.goes hc hinv (hc.refl _) (fun _ _ hdeleted => (get_of_delete hdeleted).2) (Nat.le_refl _)
  have howes : forall p, c.Stable p -> r.Owes c p ->
      Runtime.Owes c { r with tasks := r.tasks.delete id } p ∨
        Async.Ends c (fun _ => p) (fun _ => p) (task.next answer) r.kernel r.kernel := by
    intro p _ howes
    rcases howes with hnow | ⟨other, task', hget', hends⟩
    · exact Or.inl (Or.inl hnow)
    · by_cases hid : other = id
      · rw [hid] at hget'
        cases hget.symm.trans hget'
        exact Or.inr (hends answer r.kernel hhere hanswer)
      · exact Or.inl (Or.inr ⟨other, task', (OrderedMap.get_delete_ne _ hid).trans hget', hends⟩)
  unfold Runtime.resume
  rw [hrole]
  constructor
  · exact hbusy.serving hc hmet hinv hserves (fun htaken => howes duty.met hmet (h.taken htaken)) ep
  · intro p hp howed
    exact Runtime.Owes.runTask hc hp (hbusy.fresh _ (Nat.le_refl _)) hserves (howes p hp howed) ep

/-- The jobs of an epoch start one after another. -/
theorem Runtime.Serving.startJobs {post : HostedPlace × Key × Change -> Kernel -> Prop}
    (hpost : forall event, c.Stable (post event)) (ep : EpochRef)
    {events : List (HostedPlace × Key × Change)}
    (hjob : forall event, event ∈ events ->
      Async.Serve c duty inv (Lifecycle.job ep event.1 event.2.1 event.2.2) (fun _ => post event)
        (fun _ => post event))
    (hskip : forall event, event ∈ events -> forall k, inv k ->
      (k.sources event.1.name).isSome = false -> post event k)
    {r : Runtime} (h : r.Serving c duty inv) :
    (events.foldl (Runtime.startJob ep) r).Serving c duty inv ∧
      (forall event, event ∈ events ->
        (events.foldl (Runtime.startJob ep) r).Owes c (post event)) ∧
      forall p, c.Stable p -> r.Owes c p -> (events.foldl (Runtime.startJob ep) r).Owes c p := by
  induction events generalizing r with
  | nil => exact ⟨h, (fun event hmem => by cases hmem), fun _ _ howes => howes⟩
  | cons event rest ih =>
      have hfirst : (r.startJob ep event).Serving c duty inv ∧
          (r.startJob ep event).Owes c (post event) ∧
            forall p, c.Stable p -> r.Owes c p -> (r.startJob ep event).Owes c p := by
        unfold Runtime.startJob
        split_ifs with hsources
        · have hserve := hjob event List.mem_cons_self r.kernel r.kernel (hc.refl _)
            (Async.Duty.Settled.refl duty _) h.inv
          have hserves := Async.serves_mono hserve (fun _ _ _ => trivial) (fun _ _ _ => trivial)
          have hfresh := h.fresh _ (Nat.le_refl _)
          refine ⟨h.toBusy.serving hc hmet hinv hserves (fun htaken => Or.inl (h.taken htaken)) ep,
            Runtime.Owes.runTask hc (hpost event) hfresh hserves
              (Or.inr (Async.serves_ends hserve)) ep, ?_⟩
          intro p hp howes
          exact Runtime.Owes.runTask hc hp hfresh hserves (Or.inl howes) ep
        · refine ⟨h, Or.inl ?_, fun _ _ howes => howes⟩
          exact hskip event List.mem_cons_self r.kernel h.inv (by simpa using hsources)
      have hrest := ih (fun event hmem => hjob event (List.mem_cons_of_mem _ hmem))
        (fun event hmem => hskip event (List.mem_cons_of_mem _ hmem)) hfirst.1
      rw [List.foldl_cons]
      refine ⟨hrest.1, ?_, fun p hp howes => hrest.2.2 p hp (hfirst.2.2 p hp howes)⟩
      intro other hmem
      rcases List.mem_cons.mp hmem with heq | hother
      · rw [heq]
        exact hrest.2.2 _ (hpost event) hfirst.2.1
      · exact hrest.2.1 other hother

end Flight

/-!
# The turn of the epoch
-/

/-- The epoch of these events had its turn in the world {lit}`w0`, and has not ended before
this one. -/
inductive World.Handles (config : Config) (strict : Bool) (w0 : World)
    (events : List (HostedPlace × Key × Change)) : World -> Prop where
  | turn : World.Step config strict w0 (some (Serial.epoch events)) w ->
      World.Handles config strict w0 events w
  | step : World.Handles config strict w0 events w -> w.runtime.running ≠ none ->
      World.Step config strict w none w' -> World.Handles config strict w0 events w'

/-- The tasks of the watch queue wait for their turn. -/
theorem step_serial {w w' : World} (h : World.Step config strict w none w') {task : Serial}
    (hmem : task ∈ w.runtime.serial) : task ∈ w'.runtime.serial := by
  cases h with
  | change d hquiet => exact hmem
  | raise hosted names event hwatcher hplace hsources hplain hclassify => exact hmem
  | enqueue before after hosted key event heq => exact hmem
  | flush hwatcher hsize => exact List.mem_append_left _ hmem
  | initKernel hnew =>
      show task ∈ (w.runtime.initKernel config).serial
      unfold Runtime.initKernel
      rw [nextPlace_serial]
      exact hmem
  | scanned ep hosted rest hinit => exact hmem
  | originated ep hosted rest files hinit =>
      show task ∈ (w.runtime.originated config ep hosted rest files).serial
      rw [originated_serial]
      exact hmem
  | published ep rest hinit hfailed hpending =>
      show task ∈ (w.runtime.nextPlace config ep rest).serial
      rw [nextPlace_serial]
      exact hmem
  | failed ep rest hinit hfailed => exact hmem
  | resume id task' answer hget hanswer =>
      show task ∈ (w.runtime.resume id task' answer).serial
      rw [resume_serial]
      exact hmem
  | fire hosted key hget => exact List.mem_append_left _ hmem
  | endEpoch ep hrunning hpending => exact hmem

section Turn

variable (c : Async.Contract Ask.reply Kernel) (duty : Async.Duty Kernel) (inv : Kernel -> Prop)
variable (post : HostedPlace × Key × Change -> Kernel -> Prop)

/-- The epoch goes on over the same disk. -/
structure World.Goes (config : Config) (d : Disk) (ep : EpochRef)
    (events : List (HostedPlace × Key × Change)) (w : World) : Prop where
  disk : w.disk = d
  running : w.runtime.running = some (Running.epoch ep)
  orderly : w.Orderly config
  serving : w.runtime.Serving c duty inv
  owes : forall event, event ∈ events -> w.runtime.Owes c (post event)

/-- The epoch is over: all its jobs had seen to what they should, and its changes were
flushed. -/
def World.Ended (ep : EpochRef) (events : List (HostedPlace × Key × Change)) (w : World) : Prop :=
  exists k, inv k ∧ (duty.taken k -> duty.met k) ∧ (forall event, event ∈ events -> post event k) ∧
    w.runtime.kernel = (Async.run (flush ep) k).1

/-- A timer that went off while the epoch ran, against the contract. -/
def World.Fired (w : World) : Prop :=
  exists hosted key, Serial.recheck hosted key ∈ w.runtime.serial ∧
    exists k : Kernel, ¬ c.guar k (k.cancelRecheck hosted key)

variable {c duty inv post}
variable {d : Disk} {ep : EpochRef} {events : List (HostedPlace × Key × Change)}
variable (hc : c.Shared) (hmet : c.Stable duty.met) (hinv : c.Stable inv)
variable (hpost : forall event, c.Stable (post event))
variable (hready : forall k, inv k -> k.state = KernelState.ready)
variable (hanswers : forall question answer k, d.Answers strict question answer ->
  c.answers question answer k)
variable (hfire : forall (k : Kernel) hosted key, duty.taken (k.cancelRecheck hosted key) ->
  duty.taken k)
variable (hembeds : config.Embeds) (hhosts : d.Hosts config)
include hc hmet hinv hpost hready hanswers hfire hembeds hhosts

theorem World.Goes.step {w w' : World} (h : w.Goes c duty inv post config d ep events)
    (hstep : World.Step config strict w none w') :
    w'.Goes c duty inv post config d ep events ∨ w'.Fired c ∨
      w'.runtime.running = none ∧ w'.Ended duty inv post ep events := by
  have hstate := hready w.runtime.kernel h.serving.inv
  have horderly : w'.Orderly config := by
    apply h.orderly.step hembeds _ hstep
    rw [h.disk]
    exact hhosts
  have hidle : ¬ w.runtime.init.Underway := by
    intro hunderway
    cases hstate.symm.trans (h.orderly.runtime.underway hunderway)
  have hsame {w' : World} (horderly : w'.Orderly config) (hdisk : w'.disk = w.disk)
      (hkernel : w'.runtime.kernel = w.runtime.kernel)
      (htasks : w'.runtime.tasks = w.runtime.tasks)
      (hnext : w'.runtime.nextTask = w.runtime.nextTask)
      (hrunning : w'.runtime.running = w.runtime.running) :
      w'.Goes c duty inv post config d ep events := by
    have hguar : c.guar w.runtime.kernel w'.runtime.kernel := by
      rw [hkernel]
      exact hc.refl _
    have hkept : forall id task, w.runtime.tasks.get id = some task ->
        w'.runtime.tasks.get id = some task := by
      rw [htasks]
      exact fun _ _ hget => hget
    have hbusy := h.serving.toBusy.goes hc hinv hguar (by rw [htasks]; exact fun _ _ hget => hget)
      (by rw [hnext])
    refine ⟨hdisk.trans h.disk, hrunning.trans h.running, horderly, ⟨hbusy, ?_⟩, ?_⟩
    · intro htaken
      rw [hkernel] at htaken
      exact (h.serving.taken htaken).goes hc hmet hguar hkept
    · exact fun event hmem => (h.owes event hmem).goes hc (hpost event) hguar hkept
  cases hstep with
  | change d' hquiet => cases hquiet.running.symm.trans h.running
  | raise hosted names event hwatcher hmem hsources hplain hclassify =>
      exact Or.inl (hsame horderly rfl rfl rfl rfl rfl)
  | enqueue before after hosted key event heq =>
      exact Or.inl (hsame horderly rfl rfl rfl rfl rfl)
  | flush hwatcher hsize => exact Or.inl (hsame horderly rfl rfl rfl rfl rfl)
  | initKernel hnew => cases hnew.symm.trans hstate
  | scanned ep hosted rest hinit =>
      rw [hinit] at hidle
      exact absurd trivial hidle
  | originated ep hosted rest files hinit =>
      rw [hinit] at hidle
      exact absurd trivial hidle
  | published ep rest hinit hfailed hpending =>
      rw [hinit] at hidle
      exact absurd trivial hidle
  | failed ep rest hinit hfailed =>
      rw [hinit] at hidle
      exact absurd trivial hidle
  | resume id task answer hget hanswer =>
      have hrole := h.orderly.runtime.job hstate h.running hget
      rw [h.disk] at hanswer
      have hresumed := h.serving.resume hc hmet hinv hget hrole
        (hanswers _ _ w.runtime.kernel hanswer)
      refine Or.inl ⟨h.disk, ?_, horderly, hresumed.1, ?_⟩
      · have hnot : task.role ≠ Role.recheck := by
          rw [hrole]
          intro heq
          cases heq
        exact (runTask_running hnot { w.runtime with tasks := w.runtime.tasks.delete id }
          (task.next answer)).trans h.running
      · exact fun event hmem => hresumed.2 _ (hpost event) (h.owes event hmem)
  | fire hosted key hget =>
      by_cases hguar : c.guar w.runtime.kernel (w.runtime.kernel.cancelRecheck hosted key)
      · have hbusy : (w.runtime.fire hosted key).Busy c duty inv :=
          h.serving.toBusy.goes hc hinv hguar (fun _ _ hget => hget) (Nat.le_refl _)
        have hkept : forall p, c.Stable p -> w.runtime.Owes c p ->
            (w.runtime.fire hosted key).Owes c p :=
          fun p hp howes => howes.goes hc hp hguar (fun _ _ hget => hget)
        refine Or.inl ⟨h.disk, h.running, horderly, ⟨hbusy, ?_⟩, ?_⟩
        · exact fun htaken => hkept _ hmet (h.serving.taken (hfire _ hosted key htaken))
        · exact fun event hmem => hkept _ (hpost event) (h.owes event hmem)
      · refine Or.inr (Or.inl ⟨hosted, key, ?_, w.runtime.kernel, hguar⟩)
        exact List.mem_append_right _ List.mem_cons_self
  | endEpoch ep' hrunning hpending =>
      cases hrunning.symm.trans h.running
      have hnone : forall id, w.runtime.tasks.get id = none := by
        intro id
        cases hget : w.runtime.tasks.get id with
        | none => rfl
        | some task =>
            exfalso
            apply hpending
            refine ⟨id, task, hget, ?_⟩
            rw [h.orderly.runtime.job hstate h.running hget]
            rfl
      refine Or.inr (Or.inr ⟨rfl, w.runtime.kernel, h.serving.inv, ?_, ?_, rfl⟩)
      · exact fun htaken => (h.serving.taken htaken).done hnone
      · exact fun event hmem => (h.owes event hmem).done hnone

/-- However an epoch goes on, it ends well, but for a timer against the contract. -/
theorem World.Handles.outcome {w0 w : World}
    (hstart : forall w, World.Step config strict w0 (some (Serial.epoch events)) w ->
      w.Goes c duty inv post config d ep events)
    (h : World.Handles config strict w0 events w) :
    w.Goes c duty inv post config d ep events ∨ w.Fired c ∨
      w.runtime.running = none ∧ w.Ended duty inv post ep events := by
  induction h with
  | turn hstep => exact Or.inl (hstart _ hstep)
  | step hhandles hrunning hstep ih =>
      rcases ih with hgoes | ⟨hosted, key, hmem, hfired⟩ | ⟨hnone, _⟩
      · exact hgoes.step hc hmet hinv hpost hready hanswers hfire hembeds hhosts hstep
      · exact Or.inr (Or.inl ⟨hosted, key, step_serial hstep hmem, hfired⟩)
      · exact absurd hnone hrunning

end Turn

end SharedMemoryFs.Lifecycle
