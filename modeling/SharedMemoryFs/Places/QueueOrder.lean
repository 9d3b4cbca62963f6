import SharedMemoryFs.Places.Queues

/-!
# What the mutation queue orders

Conflicting tasks of one place run in the order of their calls, and nothing else
waits: a waiting task can start as soon as the earlier tasks it conflicts with have
settled, however they ended.  Every step takes some work away, so the tasks there are
come to an end, and then nothing of them is kept.
-/

namespace SharedMemoryFs

open Foundation

namespace MutationQueue

/-!
# Calls
-/

namespace Queue

/-- Call {lit}`n` queued this task at this place. -/
def Call (q : Queue) (n : Nat) (place : PlaceName) (task : QueuedTask) : Prop :=
  exists (c : Nat × Nat) (record : PlaceLocks), q.calls[n]? = some c ∧
    q.records[c.1]? = some record ∧ record.tasks[c.2]? = some task ∧ record.place = place

/-- The task of call {lit}`n` has the one of call {lit}`m` in its {lit}`prior`. -/
def Awaits (q : Queue) (n m : Nat) : Prop :=
  exists (r i j : Nat) (record : PlaceLocks) (task : QueuedTask),
    q.calls[n]? = some (r, i) ∧ q.calls[m]? = some (r, j) ∧ q.records[r]? = some record ∧
      record.tasks[i]? = some task ∧ j ∈ task.accepted.prior

/-- The task of call {lit}`n` can start now. -/
def CanStart (q : Queue) (n : Nat) : Prop :=
  exists (c : Nat × Nat) (record : PlaceLocks) (task : QueuedTask), q.calls[n]? = some c ∧
    q.records[c.1]? = some record ∧ record.tasks[c.2]? = some task ∧ record.Runnable task

/-- Every task has settled and its release step has run. -/
def Done (q : Queue) : Prop :=
  forall (n : Nat) (place : PlaceName) (task : QueuedTask), q.Call n place task ->
    task.Settled ∧ task.released = true

/-- The steps left. -/
def work (q : Queue) : Nat :=
  (q.records.map (fun record => (record.tasks.map QueuedTask.work).sum)).sum

end Queue

/-- What the queue promises at any moment. -/
structure OrdersConflicts (q : Queue) : Prop where
  /-- A task starts only after every earlier conflicting task of its place has settled. -/
  started : forall (m n : Nat) (place : PlaceName) (earlier later : QueuedTask),
    q.Call m place earlier -> q.Call n place later -> m < n ->
      Conflict earlier.accepted.keys later.accepted.keys -> later.phase ≠ Phase.waiting ->
        earlier.Settled
  /-- Conflicting tasks never overlap. -/
  apart : forall (m n : Nat) (place : PlaceName) (task other : QueuedTask),
    q.Call m place task -> q.Call n place other -> m ≠ n -> task.phase = Phase.running ->
      other.phase = Phase.running -> ¬ Conflict task.accepted.keys other.accepted.keys
  /-- A task waits only for earlier tasks of its place that conflict with it. -/
  awaits : forall (n m : Nat), q.Awaits n m -> m < n ∧
    exists (place : PlaceName) (earlier later : QueuedTask), q.Call m place earlier ∧
      q.Call n place later ∧ Conflict earlier.accepted.keys later.accepted.keys
  /-- It can start once those have settled, failed or not, whatever else is queued. -/
  runnable : forall (n : Nat) (place : PlaceName) (task : QueuedTask), q.Call n place task ->
    task.phase = Phase.waiting -> (q.CanStart n <->
      forall (m : Nat) (earlier : QueuedTask), q.Call m place earlier -> m < n ->
        Conflict earlier.accepted.keys task.accepted.keys -> earlier.Settled)
  /-- The tasks there are take finitely many steps. -/
  finite : forall (k : Nat) (q' : Queue), Queue.Advances k q q' -> k ≤ q.work
  /-- They stop only when every task has settled and been released. -/
  ends : (forall q', ¬ Queue.Advance q q') -> q.Done
  /-- No place, key or barrier is kept then. -/
  empty : q.Done -> q.places.size = 0 ∧
    forall record, record ∈ q.records -> record.Idle

/-!
# Order
-/

namespace QueueOk

variable {q : Queue} {m n : Nat} {place : PlaceName} {task other : QueuedTask}

/-- An earlier task of the place sits in a record no longer in use, or before the later
one in the same record. -/
theorem settled_or_before (h : QueueOk q) {c c' : Nat × Nat} {record record' : PlaceLocks}
    (hm : q.calls[m]? = some c) (hn : q.calls[n]? = some c')
    (hrecord : q.records[c.1]? = some record) (hrecord' : q.records[c'.1]? = some record')
    (htask : record.tasks[c.2]? = some task) (hplace : record.place = record'.place)
    (hlt : m < n) : task.Settled ∨ (c.1 = c'.1 ∧ record = record' ∧ c.2 < c'.2) := by
  rcases h.ordered m n c c' record record' hm hn hlt hrecord hrecord' hplace with
    hless | ⟨heq, hless⟩
  · left
    have hnot : q.places.get record.place ≠ some c.1 := by
      intro hget
      have hle := h.newest record.place c.1 c'.1 record' hget hrecord' hplace.symm
      exact absurd hless (Nat.not_lt_of_le hle)
    exact (h.record c.1 record hrecord).settled_of_idle (h.retired c.1 record hrecord hnot) htask
  · right
    rw [heq, hrecord'] at hrecord
    exact ⟨heq, (Option.some.inj hrecord).symm, hless⟩

theorem started (h : QueueOk q) (hm : q.Call m place task) (hn : q.Call n place other)
    (hlt : m < n) (hconflict : Conflict task.accepted.keys other.accepted.keys)
    (hstarted : other.phase ≠ Phase.waiting) : task.Settled := by
  rcases hm with ⟨c, record, hcall, hrecord, htask, hplace⟩
  rcases hn with ⟨c', record', hcall', hrecord', hother, hplace'⟩
  rcases h.settled_or_before hcall hcall' hrecord hrecord' htask (hplace.trans hplace'.symm) hlt
    with hsettled | ⟨_, rfl, hless⟩
  · exact hsettled
  · exact (PlaceLocks.settled_iff htask).mp
      ((h.record c.1 record hrecord).admits.ordered c.2 c'.2 _ _ (queue_get htask)
        (queue_get hother) hless hconflict ((PlaceLocks.started_iff hother).mpr hstarted))

theorem not_settled_of_running (hrunning : task.phase = Phase.running) : ¬ task.Settled := by
  intro hsettled
  rcases hsettled with ⟨failed, hphase⟩
  rw [hrunning] at hphase
  cases hphase

theorem not_waiting_of_running (hrunning : task.phase = Phase.running) :
    task.phase ≠ Phase.waiting := by
  rw [hrunning]
  exact fun heq => by cases heq

theorem apart (h : QueueOk q) (hm : q.Call m place task) (hn : q.Call n place other)
    (hne : m ≠ n) (hrunning : task.phase = Phase.running)
    (hrunning' : other.phase = Phase.running) :
    ¬ Conflict task.accepted.keys other.accepted.keys := by
  intro hconflict
  rcases Nat.lt_or_gt_of_ne hne with hlt | hgt
  · exact not_settled_of_running hrunning
      (h.started hm hn hlt hconflict (not_waiting_of_running hrunning'))
  · exact not_settled_of_running hrunning'
      (h.started hn hm hgt hconflict.symm (not_waiting_of_running hrunning))

/-- Within a record the order of the calls is the order of the tasks. -/
theorem lt_of_lt (h : QueueOk q) {r i j : Nat} {record : PlaceLocks}
    (hrecord : q.records[r]? = some record) (hn : q.calls[n]? = some (r, i))
    (hm : q.calls[m]? = some (r, j)) (hlt : j < i) : m < n := by
  rcases Nat.lt_trichotomy m n with hless | heq | hgt
  · exact hless
  · rw [heq, hn] at hm
    have hsame : i = j := congrArg Prod.snd (Option.some.inj hm)
    omega
  · rcases h.ordered n m (r, i) (r, j) record record hn hm hgt hrecord hrecord rfl with
      hless | ⟨_, hless⟩
    · exact absurd hless (Nat.lt_irrefl _)
    · exact absurd hlt (Nat.lt_asymm hless)

theorem awaits (h : QueueOk q) (hawaits : q.Awaits n m) : m < n ∧
    exists (place : PlaceName) (earlier later : QueuedTask), q.Call m place earlier ∧
      q.Call n place later ∧ Conflict earlier.accepted.keys later.accepted.keys := by
  rcases hawaits with ⟨r, i, j, record, task, hn, hm, hrecord, htask, hprior⟩
  rcases (h.record r record hrecord).prior i task j htask hprior with
    ⟨hlt, other, hother, hconflict⟩
  exact ⟨h.lt_of_lt hrecord hn hm hlt, record.place, other, task,
    ⟨(r, j), record, hm, hrecord, hother, rfl⟩, ⟨(r, i), record, hn, hrecord, htask, rfl⟩,
    hconflict⟩

theorem runnable (h : QueueOk q) (hn : q.Call n place task)
    (hwaiting : task.phase = Phase.waiting) : q.CanStart n <->
      forall (m : Nat) (earlier : QueuedTask), q.Call m place earlier -> m < n ->
        Conflict earlier.accepted.keys task.accepted.keys -> earlier.Settled := by
  rcases hn with ⟨c, record, hcall, hrecord, htask, hplace⟩
  constructor
  · intro hcan m earlier hm hlt hconflict
    rcases hcan with ⟨c', record', task', hcall', hrecord', htask', hrun⟩
    rw [hcall] at hcall'
    rw [← Option.some.inj hcall', hrecord] at hrecord'
    rw [← Option.some.inj hcall', ← Option.some.inj hrecord', htask] at htask'
    rw [← Option.some.inj hrecord', ← Option.some.inj htask'] at hrun
    rcases hm with ⟨d, other, hd, hother, hearlier, hplace'⟩
    rcases h.settled_or_before hd hcall hother hrecord hearlier (hplace'.trans hplace.symm) hlt
      with hsettled | ⟨_, rfl, hless⟩
    · exact hsettled
    · exact (PlaceLocks.settled_iff hearlier).mp
        ((h.record c.1 other hrecord).admits.settled_before (queue_get hearlier)
          (queue_get htask) hless hconflict hrun.2)
  · intro hall
    refine ⟨c, record, task, hcall, hrecord, htask, hwaiting, ?_⟩
    intro j hprior
    rcases (h.record c.1 record hrecord).prior c.2 task j htask hprior with
      ⟨hlt, other, hother, hconflict⟩
    rcases h.task c.1 j record other hrecord hother with ⟨m, hm⟩
    exact (PlaceLocks.settled_iff hother).mpr
      (hall m other ⟨(c.1, j), record, hm, hrecord, hother, hplace⟩
        (h.lt_of_lt hrecord hcall hm hlt) hconflict)

/-!
# Coming to an end
-/

/-- Some task ahead of one that is not through can take a step. -/
theorem exists_advance (h : QueueOk q) {r : Nat} {record : PlaceLocks}
    (hrecord : q.records[r]? = some record) (i : Nat) (task : QueuedTask)
    (htask : record.tasks[i]? = some task)
    (hleft : ¬ (task.Settled ∧ task.released = true)) : exists q', Queue.Advance q q' := by
  induction i using Nat.strongRecOn generalizing task with
  | ind i ih =>
      cases hphase : task.phase with
      | running => exact ⟨_, Queue.Advance.settle r i record task false hrecord htask hphase⟩
      | settled failed =>
          cases hreleased : task.released with
          | false =>
              exact ⟨_, Queue.Advance.release r i record task hrecord htask ⟨failed, hphase⟩
                hreleased⟩
          | true => exact absurd ⟨⟨failed, hphase⟩, hreleased⟩ hleft
      | waiting =>
          by_cases hrun : record.Runnable task
          · exact ⟨_, Queue.Advance.start r i record task hrecord htask hrun⟩
          · have hblocked : exists j, j ∈ task.accepted.prior ∧ ¬ record.progress.settled j := by
              apply Classical.byContradiction
              intro hnone
              apply hrun
              refine ⟨hphase, fun j hj => Classical.byContradiction fun hunsettled => ?_⟩
              exact hnone ⟨j, hj, hunsettled⟩
            rcases hblocked with ⟨j, hj, hunsettled⟩
            rcases (h.record r record hrecord).prior i task j htask hj with
              ⟨hlt, other, hother, _⟩
            apply ih j hlt other hother
            intro hthrough
            exact hunsettled ((PlaceLocks.settled_iff hother).mpr hthrough.1)

theorem ends (h : QueueOk q) (hstuck : forall q', ¬ Queue.Advance q q') : q.Done := by
  intro n place task hcall
  rcases hcall with ⟨c, record, _, hrecord, htask, _⟩
  apply Classical.byContradiction
  intro hleft
  rcases h.exists_advance hrecord c.2 task htask hleft with ⟨q', hstep⟩
  exact hstuck q' hstep

theorem empty (h : QueueOk q) (hin : InUse q) (hdone : q.Done) : q.places.size = 0 ∧
    forall record, record ∈ q.records -> record.Idle := by
  have hidle : forall (r : Nat) (record : PlaceLocks), q.records[r]? = some record ->
      record.Idle := by
    intro r record hrecord
    apply (h.record r record hrecord).idle_of_released
    intro i task htask
    rcases h.task r i record task hrecord htask with ⟨n, hn⟩
    exact (hdone n record.place task ⟨(r, i), record, hn, hrecord, htask, rfl⟩).2
  constructor
  · rw [OrderedMap.size_eq_zero_iff]
    intro name
    cases hget : q.places.get name with
    | none => rfl
    | some r =>
        rcases h.current name r hget with ⟨record, hrecord, _⟩
        exact absurd (hidle r record hrecord) (hin name r record hget hrecord)
  · intro record hmem
    rcases List.mem_iff_getElem?.mp hmem with ⟨r, hrecord⟩
    exact hidle r record hrecord

end QueueOk

theorem sum_map_set {alpha : Type} (f : alpha -> Nat) {l : List alpha} {i : Nat} {a : alpha}
    (h : l[i]? = some a) (b : alpha) :
    ((l.set i b).map f).sum + f a = (l.map f).sum + f b := by
  induction l generalizing i with
  | nil => cases h
  | cons x rest ih =>
      cases i with
      | zero =>
          have hx : x = a := Option.some.inj h
          simp only [List.set_cons_zero, List.map_cons, List.sum_cons, hx]
          omega
      | succ i =>
          have hrest := ih h
          simp only [List.set_cons_succ, List.map_cons, List.sum_cons]
          omega

namespace Queue

variable {q q' : Queue}

/-- The work of one task is the work the queue loses. -/
theorem work_set {r i : Nat} {record left : PlaceLocks} {task task' : QueuedTask}
    (hrecord : q.records[r]? = some record) (htask : record.tasks[i]? = some task)
    (hleft : left.tasks = record.tasks.set i task') (hwork : task.work = task'.work + 1)
    {places : OrderedMap PlaceName Nat} :
    q.work = work { places := places, records := q.records.set r left, calls := q.calls } + 1 := by
  have hqueue : ((q.records.set r left).map fun record =>
        (record.tasks.map QueuedTask.work).sum).sum + (record.tasks.map QueuedTask.work).sum =
      q.work + (left.tasks.map QueuedTask.work).sum :=
    sum_map_set (fun record => (record.tasks.map QueuedTask.work).sum) hrecord left
  have htasks := sum_map_set QueuedTask.work htask task'
  rw [← hleft] at htasks
  show q.work = ((q.records.set r left).map fun record =>
    (record.tasks.map QueuedTask.work).sum).sum + 1
  omega

/-- Each step takes one unit of work away. -/
theorem Advance.work (hok : QueueOk q) (h : Advance q q') : q.work = q'.work + 1 := by
  cases h with
  | start r i record task hrecord htask hrun =>
      apply work_set hrecord htask rfl
      unfold QueuedTask.work
      rw [hrun.1]
  | settle r i record task failed hrecord htask hrunning =>
      apply work_set hrecord htask rfl
      have hreleased : task.released = false := by
        cases hreleased : task.released with
        | false => rfl
        | true =>
            exact absurd ((hok.record r record hrecord).released i task htask hreleased)
              (QueueOk.not_settled_of_running hrunning)
      unfold QueuedTask.work
      rw [hrunning]
      show 2 = (if task.released = true then 0 else 1) + 1
      rw [hreleased]
      rfl
  | release r i record task hrecord htask hsettled hreleased =>
      apply work_set hrecord htask rfl
      rcases hsettled with ⟨failed, hphase⟩
      unfold QueuedTask.work
      rw [hphase, hreleased]
      rfl

theorem Advances.work {k : Nat} (hok : QueueOk q) (hin : InUse q) (h : Advances k q q') :
    q.work = q'.work + k := by
  induction h with
  | refl => rfl
  | step hstep _ ih =>
      rcases hok.advance hin hstep with ⟨hok', hin'⟩
      rw [hstep.work hok, ih hok' hin']
      exact Nat.add_assoc _ _ _

end Queue

/-!
# The queue as a whole
-/

/-- The queue orders conflicting tasks and nothing else, after any calls and whatever
the tasks do. -/
theorem queue_orders {q : Queue} (h : Queue.Reachable q) : OrdersConflicts q := by
  rcases h.ok with ⟨hok, hin⟩
  constructor
  · intro m n place earlier later hm hn hlt hconflict hstarted
    exact hok.started hm hn hlt hconflict hstarted
  · intro m n place task other hm hn hne hrunning hrunning'
    exact hok.apart hm hn hne hrunning hrunning'
  · intro n m hawaits
    exact hok.awaits hawaits
  · intro n place task hn hwaiting
    exact hok.runnable hn hwaiting
  · intro k q' hsteps
    rw [hsteps.work hok hin]
    exact Nat.le_add_left k q'.work
  · exact hok.ends
  · exact hok.empty hin

/-- Two writes of different keys with a directory removal behind them. -/
theorem queue_orders_calls : OrdersConflicts
    (((Queue.new.run (Request.ofMutation "place" PlaceFiles.empty
        (Mutation.write ['/', 'a'] [120] false))).run
      (Request.ofMutation "place" PlaceFiles.empty (Mutation.append ['/', 'b'] [121]))).run
        (Request.ofMutation "place" PlaceFiles.empty (Mutation.rm [] true true true))) :=
  queue_orders (Queue.Reachable.run _ (Queue.Reachable.run _ (Queue.Reachable.run _
    Queue.Reachable.new)))

end MutationQueue

end SharedMemoryFs
