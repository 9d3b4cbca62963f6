import SharedMemoryFs.Places.MutationQueue
import SharedMemoryFs.Places.SabStore

/-!
# Every place of the mutation queue

The queue keeps one record of locks for each place with a task queued or running.
A record that empties is dropped, and the next task of the place makes a new one;
tasks still know the record they were accepted with, and their release steps may
come late and in any order.
-/

namespace SharedMemoryFs

open Foundation

/-- A call of {lit}`run`.  A task that takes no barrier touches a key. -/
structure Request where
  place : PlaceName
  keys : Option (List Key)
  touches : keys ≠ some []

/-- The locks a mutation takes touch a key. -/
theorem SabStore.locks_touch (files : Files) (op : Mutation) :
    SabStore.locksOf files op ≠ some [] := by
  cases op with
  | write key data exclusive => exact fun h => by cases h
  | append key data => exact fun h => by cases h
  | unlink key directory => exact fun h => by cases h
  | mkdir key recursive => exact fun h => by cases h
  | rm key directory force recursive => exact fun h => by cases h
  | rename source target directory =>
      intro h
      have hrename : (if !directory ∧ files.hasSource source = true then some [source, target]
        else none) = some [] := h
      split_ifs at hrename
      cases hrename

/-- {lit}`enqueueMutation`, as the shared store calls it. -/
def Request.ofMutation (place : PlaceName) (files : Files) (op : Mutation) : Request :=
  { place := place, keys := SabStore.locksOf files op, touches := SabStore.locks_touch files op }

namespace MutationQueue

/-- How far a task is. -/
inductive Phase where
  | waiting
  | running
  | settled (failed : Bool)
deriving DecidableEq

structure QueuedTask where
  accepted : Accepted Key
  phase : Phase
  released : Bool

namespace QueuedTask

def Settled (task : QueuedTask) : Prop := exists failed, task.phase = Phase.settled failed

/-- The steps a task still has before it. -/
def work (task : QueuedTask) : Nat :=
  match task.phase with
  | Phase.waiting => 3
  | Phase.running => 2
  | Phase.settled _ => if task.released then 0 else 1

end QueuedTask

/-- One {lit}`locks` object, with the tasks accepted with it. -/
structure PlaceLocks where
  place : PlaceName
  locks : Locks Key
  tasks : List QueuedTask

namespace PlaceLocks

variable (record : PlaceLocks)

def new (place : PlaceName) : PlaceLocks := { place := place, locks := Locks.new, tasks := [] }

/-- No record of a key or of the barrier is left. -/
def Idle : Prop := record.locks.keys.size = 0 ∧ record.locks.barrier = none

instance : Decidable record.Idle := inferInstanceAs (Decidable (_ ∧ _))

/-- Take the locks and queue the task. -/
def enqueue (keys : Option (List Key)) : PlaceLocks :=
  { record with
    locks := record.locks.acquire record.tasks.length keys
    tasks := record.tasks ++
      [{ accepted := { keys := keys, prior := record.locks.prior keys }
         phase := Phase.waiting
         released := false }] }

def setPhase (i : Nat) (task : QueuedTask) (phase : Phase) : PlaceLocks :=
  { record with tasks := record.tasks.set i { task with phase := phase } }

/-- The records still pointing at the task go. -/
def release (i : Nat) (task : QueuedTask) : PlaceLocks :=
  { record with
    locks := record.locks.release i task.accepted.keys
    tasks := record.tasks.set i { task with released := true } }

def queue : List (Accepted Key) := record.tasks.map QueuedTask.accepted

def progress : Progressed :=
  { started := fun i => exists task, record.tasks[i]? = some task ∧ task.phase ≠ Phase.waiting
    settled := fun i => exists task, record.tasks[i]? = some task ∧ task.Settled }

/-- Every task the task waits for has settled. -/
def Runnable (task : QueuedTask) : Prop :=
  task.phase = Phase.waiting ∧ forall m, m ∈ task.accepted.prior -> record.progress.settled m

end PlaceLocks

/-- {lit}`places` holds the record of each place in use; {lit}`records` are all there
ever were, and {lit}`calls` says, in the order of the calls of {lit}`run`, which task of
which record each one is. -/
structure Queue where
  places : OrderedMap PlaceName Nat
  records : List PlaceLocks
  calls : List (Nat × Nat)

namespace Queue

def new : Queue := { places := OrderedMap.empty, records := [], calls := [] }

/-- {lit}`#locks`: the record of the place, made when there is none. -/
def locks (q : Queue) (place : PlaceName) : Queue × Nat :=
  match q.places.get place with
  | some r => (q, r)
  | none =>
      ({ q with
          places := q.places.set place q.records.length
          records := q.records ++ [PlaceLocks.new place] }, q.records.length)

/-- The task is queued with record {lit}`r`. -/
def accept (q : Queue) (r : Nat) (keys : Option (List Key)) : Queue :=
  q.records[r]?.elim q (fun record =>
    { q with
      records := q.records.set r (record.enqueue keys)
      calls := q.calls ++ [(r, record.tasks.length)] })

/-- {lit}`run`. -/
def run (q : Queue) (request : Request) : Queue :=
  let found := q.locks request.place
  found.1.accept found.2 request.keys

def put (q : Queue) (r : Nat) (record : PlaceLocks) : Queue :=
  { q with records := q.records.set r record }

/-- {lit}`#release`: a record that is empty and still in use is dropped. -/
def release (q : Queue) (r i : Nat) (record : PlaceLocks) (task : QueuedTask) : Queue :=
  { q with
    places :=
      if (record.release i task).Idle ∧ q.places.get record.place = some r then
        q.places.delete record.place
      else q.places
    records := q.records.set r (record.release i task) }

/-- One step of the tasks there are. -/
inductive Advance (q : Queue) : Queue -> Prop where
  | start (r i : Nat) (record : PlaceLocks) (task : QueuedTask) :
      q.records[r]? = some record -> record.tasks[i]? = some task -> record.Runnable task ->
      Advance q (q.put r (record.setPhase i task Phase.running))
  | settle (r i : Nat) (record : PlaceLocks) (task : QueuedTask) (failed : Bool) :
      q.records[r]? = some record -> record.tasks[i]? = some task ->
      task.phase = Phase.running ->
      Advance q (q.put r (record.setPhase i task (Phase.settled failed)))
  | release (r i : Nat) (record : PlaceLocks) (task : QueuedTask) :
      q.records[r]? = some record -> record.tasks[i]? = some task -> task.Settled ->
      task.released = false -> Advance q (q.release r i record task)

/-- The queue after any calls, each task taking its time and ending as it likes. -/
inductive Reachable : Queue -> Prop where
  | new : Reachable new
  | run (request : Request) : Reachable q -> Reachable (q.run request)
  | advance : Reachable q -> Advance q q' -> Reachable q'

/-- A number of steps without a new call. -/
inductive Advances : Nat -> Queue -> Queue -> Prop where
  | refl : Advances 0 q q
  | step : Advance q q' -> Advances n q' q'' -> Advances (n + 1) q q''

end Queue

/-!
# One record
-/

/-- The invariant of a record. -/
structure RecordOk (record : PlaceLocks) : Prop where
  admits : Admits record.locks record.queue record.progress
  prior : forall (i : Nat) (task : QueuedTask) (m : Nat), record.tasks[i]? = some task -> m ∈ task.accepted.prior ->
    m < i ∧ exists other : QueuedTask, record.tasks[m]? = some other ∧
      Conflict other.accepted.keys task.accepted.keys
  tail : forall k i, record.locks.keys.get k = some i ->
    exists task : QueuedTask, record.tasks[i]? = some task ∧ task.released = false
  barrier : forall i, record.locks.barrier = some i ->
    exists task : QueuedTask, record.tasks[i]? = some task ∧ task.released = false
  released : forall (i : Nat) (task : QueuedTask), record.tasks[i]? = some task -> task.released = true -> task.Settled

theorem get_set_task {tasks : List QueuedTask} {i j : Nat} {task u : QueuedTask}
    (h : (tasks.set i task)[j]? = some u) :
    (j = i ∧ u = task) ∨ (j ≠ i ∧ tasks[j]? = some u) := by
  rw [List.getElem?_set] at h
  by_cases hj : i = j
  · rw [if_pos hj] at h
    split_ifs at h
    exact Or.inl ⟨hj.symm, (Option.some.inj h).symm⟩
  · rw [if_neg hj] at h
    exact Or.inr ⟨fun heq => hj heq.symm, h⟩

theorem get_set_same {tasks : List QueuedTask} {i : Nat} {task : QueuedTask}
    (h : tasks[i]? = some task) (task' : QueuedTask) : (tasks.set i task')[i]? = some task' :=
  List.getElem?_set_self (List.getElem?_eq_some_iff.mp h).1

theorem get_set_other {tasks : List QueuedTask} {i j : Nat} (hne : j ≠ i) (task' : QueuedTask) :
    (tasks.set i task')[j]? = tasks[j]? :=
  List.getElem?_set_ne (fun heq => hne heq.symm)

theorem queue_get {record : PlaceLocks} {i : Nat} {task : QueuedTask}
    (h : record.tasks[i]? = some task) : record.queue[i]? = some task.accepted := by
  unfold PlaceLocks.queue
  rw [List.getElem?_map, h]
  rfl

theorem get_queue {record : PlaceLocks} {i : Nat} {accepted : Accepted Key}
    (h : record.queue[i]? = some accepted) :
    exists task, record.tasks[i]? = some task ∧ task.accepted = accepted := by
  unfold PlaceLocks.queue at h
  rw [List.getElem?_map, Option.map_eq_some_iff] at h
  exact h

theorem queue_set {record : PlaceLocks} {i : Nat} {task task' : QueuedTask}
    (h : record.tasks[i]? = some task) (hsame : task'.accepted = task.accepted) :
    (record.tasks.set i task').map QueuedTask.accepted = record.queue := by
  unfold PlaceLocks.queue
  rw [List.map_set, hsame]
  apply List.ext_getElem?
  intro j
  by_cases hj : j = i
  · rw [hj, List.getElem?_set_self, List.getElem?_map, h]
    · rfl
    · rw [List.length_map]
      exact (List.getElem?_eq_some_iff.mp h).1
  · rw [List.getElem?_set_ne (fun heq => hj heq.symm)]

namespace PlaceLocks

variable {record : PlaceLocks} {i : Nat} {task : QueuedTask} {keys : Option (List Key)}

theorem started_iff (h : record.tasks[i]? = some task) :
    record.progress.started i <-> task.phase ≠ Phase.waiting := by
  constructor
  · intro hstarted
    rcases hstarted with ⟨task', htask', hphase⟩
    rw [h] at htask'
    rw [Option.some.inj htask']
    exact hphase
  · intro hphase
    exact ⟨task, h, hphase⟩

theorem settled_iff (h : record.tasks[i]? = some task) :
    record.progress.settled i <-> task.Settled := by
  constructor
  · intro hsettled
    rcases hsettled with ⟨task', htask', hphase⟩
    rw [h] at htask'
    rw [Option.some.inj htask']
    exact hphase
  · intro hphase
    exact ⟨task, h, hphase⟩

theorem started_of_settled (h : record.progress.settled i) : record.progress.started i := by
  rcases h with ⟨task, htask, failed, hphase⟩
  refine ⟨task, htask, ?_⟩
  rw [hphase]
  exact fun heq => by cases heq

theorem queue_enqueue :
    (record.enqueue keys).queue =
      record.queue ++ [{ keys := keys, prior := record.locks.prior keys }] := List.map_append

theorem length_queue : record.queue.length = record.tasks.length := List.length_map _

/-- A task keeps its place when another one is queued. -/
theorem get_enqueue (h : record.tasks[i]? = some task) :
    (record.enqueue keys).tasks[i]? = some task := by
  show (record.tasks ++ _)[i]? = some task
  rw [List.getElem?_append_left (List.getElem?_eq_some_iff.mp h).1]
  exact h

theorem enqueue_get (h : (record.enqueue keys).tasks[i]? = some task) :
    record.tasks[i]? = some task ∨ (i = record.tasks.length ∧ task =
      { accepted := { keys := keys, prior := record.locks.prior keys }
        phase := Phase.waiting
        released := false }) := by
  have happend : (record.tasks ++ [_])[i]? = some task := h
  rcases Nat.lt_trichotomy i record.tasks.length with hlt | heq | hgt
  · rw [List.getElem?_append_left hlt] at happend
    exact Or.inl happend
  · rw [heq, List.getElem?_concat_length] at happend
    exact Or.inr ⟨heq, (Option.some.inj happend).symm⟩
  · rw [List.getElem?_eq_none (by rw [List.length_append]; exact hgt)] at happend
    cases happend

theorem enqueue_last : (record.enqueue keys).tasks[record.tasks.length]? =
    some { accepted := { keys := keys, prior := record.locks.prior keys }
           phase := Phase.waiting
           released := false } := List.getElem?_concat_length

/-- A task just queued has not started. -/
theorem progress_enqueue : (record.enqueue keys).progress = record.progress := by
  have hstarted : forall i, (record.enqueue keys).progress.started i <->
      record.progress.started i := by
    intro i
    constructor
    · intro h
      rcases h with ⟨task, htask, hphase⟩
      rcases enqueue_get htask with hold | ⟨_, rfl⟩
      · exact ⟨task, hold, hphase⟩
      · exact absurd rfl hphase
    · intro h
      rcases h with ⟨task, htask, hphase⟩
      exact ⟨task, get_enqueue htask, hphase⟩
  have hsettled : forall i, (record.enqueue keys).progress.settled i <->
      record.progress.settled i := by
    intro i
    constructor
    · intro h
      rcases h with ⟨task, htask, failed, hphase⟩
      rcases enqueue_get htask with hold | ⟨_, rfl⟩
      · exact ⟨task, hold, failed, hphase⟩
      · cases hphase
    · intro h
      rcases h with ⟨task, htask, hphase⟩
      exact ⟨task, get_enqueue htask, hphase⟩
  exact congrArg₂ Progressed.mk (funext fun i => propext (hstarted i))
    (funext fun i => propext (hsettled i))

theorem progress_release (h : record.tasks[i]? = some task) :
    (record.release i task).progress = record.progress := by
  have hmoved : forall (P : Phase -> Prop) (j : Nat),
      (exists u, (record.release i task).tasks[j]? = some u ∧ P u.phase) <->
        exists u, record.tasks[j]? = some u ∧ P u.phase := by
    intro P j
    constructor
    · intro hnew
      rcases hnew with ⟨u, hu, hphase⟩
      rcases get_set_task hu with ⟨rfl, rfl⟩ | ⟨_, hold⟩
      · exact ⟨task, h, hphase⟩
      · exact ⟨u, hold, hphase⟩
    · intro hold
      rcases hold with ⟨u, hu, hphase⟩
      by_cases hj : j = i
      · rw [hj, h] at hu
        rw [hj]
        refine ⟨_, get_set_same h _, ?_⟩
        rw [Option.some.inj hu]
        exact hphase
      · exact ⟨u, (get_set_other hj _).trans hu, hphase⟩
  exact congrArg₂ Progressed.mk
    (funext fun j => propext (hmoved (fun phase => phase ≠ Phase.waiting) j))
    (funext fun j => propext
      (hmoved (fun phase => exists failed, phase = Phase.settled failed) j))

end PlaceLocks

namespace RecordOk

open PlaceLocks

variable {record : PlaceLocks} {i : Nat} {task : QueuedTask}

theorem new (place : PlaceName) : RecordOk (PlaceLocks.new place) := by
  constructor
  · exact Admits.new _ (fun i hi => started_of_settled hi)
  · intro i task m htask
    cases htask
  · intro k i hget
    cases hget
  · intro i hget
    cases hget
  · intro i task htask
    cases htask

/-- What a new task waits for conflicts with it. -/
theorem conflict_of_prior (h : RecordOk record) {keys : Option (List Key)} {m : Nat}
    (hm : m ∈ record.locks.prior keys) :
    exists other, record.tasks[m]? = some other ∧ Conflict other.accepted.keys keys := by
  unfold Locks.prior at hm
  rcases List.mem_append.mp hm with hbarrier | htail
  · rcases h.admits.barrier m (Option.mem_toList.mp hbarrier) with ⟨accepted, hget, hnone⟩
    rcases get_queue hget with ⟨other, hother, rfl⟩
    refine ⟨other, hother, ?_⟩
    rw [hnone]
    exact conflict_none_left _
  · cases keys with
    | none =>
        rcases OrderedMap.mem_values_iff.mp htail with ⟨k, hk⟩
        rcases h.tail k m hk with ⟨other, hother, _⟩
        exact ⟨other, hother, conflict_none_right _⟩
    | some keys =>
        rcases List.mem_filterMap.mp htail with ⟨k, hheld, hk⟩
        rcases h.admits.tail k m hk with ⟨accepted, ks, hget, hks, hmem⟩
        rcases get_queue hget with ⟨other, hother, rfl⟩
        refine ⟨other, hother, ?_⟩
        rw [hks]
        exact ⟨k, hmem, Locks.mem_held.mp hheld⟩

theorem enqueue (h : RecordOk record) {keys : Option (List Key)} (hkeys : keys ≠ some []) :
    RecordOk (record.enqueue keys) := by
  constructor
  · rw [progress_enqueue, queue_enqueue]
    have hfresh : ¬ record.progress.started record.queue.length := by
      intro hstarted
      rcases hstarted with ⟨task, htask, _⟩
      rw [length_queue] at htask
      exact absurd (List.getElem?_eq_some_iff.mp htask).1 (Nat.lt_irrefl _)
    have haccept := h.admits.accept keys hkeys hfresh
    rw [length_queue] at haccept
    exact haccept
  · intro i task m htask hm
    rcases enqueue_get htask with hold | ⟨rfl, rfl⟩
    · rcases h.prior i task m hold hm with ⟨hlt, other, hother, hconflict⟩
      exact ⟨hlt, other, get_enqueue hother, hconflict⟩
    · rcases h.conflict_of_prior hm with ⟨other, hother, hconflict⟩
      exact ⟨(List.getElem?_eq_some_iff.mp hother).1, other, get_enqueue hother, hconflict⟩
  · intro k i hget
    cases keys with
    | none => cases hget
    | some keys =>
        have hacquire : (record.locks.acquire record.tasks.length (some keys)).keys.get k =
            some i := hget
        rw [Locks.get_acquire] at hacquire
        split_ifs at hacquire
        · rw [← Option.some.inj hacquire]
          exact ⟨_, enqueue_last, rfl⟩
        · rcases h.tail k i hacquire with ⟨task, htask, hreleased⟩
          exact ⟨task, get_enqueue htask, hreleased⟩
  · intro i hget
    cases keys with
    | none =>
        rw [← Option.some.inj hget]
        exact ⟨_, enqueue_last, rfl⟩
    | some keys =>
        rcases h.barrier i hget with ⟨task, htask, hreleased⟩
        exact ⟨task, get_enqueue htask, hreleased⟩
  · intro i task htask hreleased
    rcases enqueue_get htask with hold | ⟨_, rfl⟩
    · exact h.released i task hold hreleased
    · cases hreleased

/-- A task starts or settles, every earlier one it conflicts with having settled. -/
theorem setPhase (h : RecordOk record) (htask : record.tasks[i]? = some task) {phase : Phase}
    (hunsettled : ¬ task.Settled) (hphase : phase ≠ Phase.waiting)
    (hearlier : forall j u, record.queue[j]? = some u -> j < i ->
      Conflict u.keys task.accepted.keys -> record.progress.settled j) :
    RecordOk (record.setPhase i task phase) := by
  have hqueue : (record.setPhase i task phase).queue = record.queue := queue_set htask rfl
  have hkept : forall {j : Nat} {u : QueuedTask}, record.tasks[j]? = some u ->
      exists u', (record.setPhase i task phase).tasks[j]? = some u' ∧
        u'.accepted = u.accepted ∧ u'.released = u.released := by
    intro j u hu
    by_cases hj : j = i
    · rw [hj, htask] at hu
      rw [hj, ← Option.some.inj hu]
      exact ⟨_, get_set_same htask _, rfl, rfl⟩
    · exact ⟨u, (get_set_other hj _).trans hu, rfl, rfl⟩
  constructor
  · rw [hqueue]
    apply h.admits.progress (queue_get htask) hearlier
    · intro j
      constructor
      · intro hstarted
        rcases hstarted with ⟨u, hu, hu'⟩
        rcases get_set_task hu with ⟨hj, _⟩ | ⟨_, hold⟩
        · exact Or.inr hj
        · exact Or.inl ⟨u, hold, hu'⟩
      · intro hcases
        by_cases hj : j = i
        · rw [hj]
          exact ⟨_, get_set_same htask _, hphase⟩
        · rcases hcases.resolve_right hj with ⟨u, hu, hu'⟩
          exact ⟨u, (get_set_other hj _).trans hu, hu'⟩
    · intro j hsettled
      rcases hsettled with ⟨u, hu, hu'⟩
      rcases get_set_task hu with ⟨hj, _⟩ | ⟨_, hold⟩
      · exact Or.inr hj
      · exact Or.inl ⟨u, hold, hu'⟩
    · intro j hsettled
      rcases hsettled with ⟨u, hu, hu'⟩
      have hj : j ≠ i := by
        intro hj
        rw [hj, htask] at hu
        rw [← Option.some.inj hu] at hu'
        exact hunsettled hu'
      exact ⟨u, (get_set_other hj _).trans hu, hu'⟩
  · intro j u m hu hm
    have hold : exists u', record.tasks[j]? = some u' ∧ u'.accepted = u.accepted := by
      rcases get_set_task hu with ⟨rfl, rfl⟩ | ⟨_, hold⟩
      · exact ⟨task, htask, rfl⟩
      · exact ⟨u, hold, rfl⟩
    rcases hold with ⟨u', hu', heq⟩
    rw [← heq] at hm ⊢
    rcases h.prior j u' m hu' hm with ⟨hlt, other, hother, hconflict⟩
    rcases hkept hother with ⟨other', hother', haccepted, _⟩
    rw [← haccepted] at hconflict
    exact ⟨hlt, other', hother', hconflict⟩
  · intro k j hget
    rcases h.tail k j hget with ⟨u, hu, hreleased⟩
    rcases hkept hu with ⟨u', hu', _, heq⟩
    exact ⟨u', hu', heq.trans hreleased⟩
  · intro j hget
    rcases h.barrier j hget with ⟨u, hu, hreleased⟩
    rcases hkept hu with ⟨u', hu', _, heq⟩
    exact ⟨u', hu', heq.trans hreleased⟩
  · intro j u hu hreleased
    rcases get_set_task hu with ⟨rfl, rfl⟩ | ⟨_, hold⟩
    · exact absurd (h.released j task htask hreleased) hunsettled
    · exact h.released j u hold hreleased

theorem start (h : RecordOk record) (htask : record.tasks[i]? = some task)
    (hrun : record.Runnable task) : RecordOk (record.setPhase i task Phase.running) := by
  apply h.setPhase htask
  · intro hsettled
    rcases hsettled with ⟨failed, hphase⟩
    rw [hrun.1] at hphase
    cases hphase
  · exact fun heq => by cases heq
  · intro j u hu hlt hconflict
    exact h.admits.settled_before hu (queue_get htask) hlt hconflict hrun.2

theorem settle (h : RecordOk record) (htask : record.tasks[i]? = some task)
    (hrunning : task.phase = Phase.running) (failed : Bool) :
    RecordOk (record.setPhase i task (Phase.settled failed)) := by
  have hstarted : task.phase ≠ Phase.waiting := by
    rw [hrunning]
    exact fun heq => by cases heq
  apply h.setPhase htask
  · intro hsettled
    rcases hsettled with ⟨failed', hphase⟩
    rw [hrunning] at hphase
    cases hphase
  · exact fun heq => by cases heq
  · intro j u hu hlt hconflict
    exact h.admits.ordered j i u _ hu (queue_get htask) hlt hconflict
      ((started_iff htask).mpr hstarted)

/-- No lock of the record points at a task it has released. -/
theorem release (h : RecordOk record) (htask : record.tasks[i]? = some task)
    (hsettled : task.Settled) : RecordOk (record.release i task) := by
  have hqueue : (record.release i task).queue = record.queue := queue_set htask rfl
  have hkept : forall {j : Nat} {u : QueuedTask}, record.tasks[j]? = some u -> j ≠ i ->
      (record.release i task).tasks[j]? = some u :=
    fun hu hj => (get_set_other hj _).trans hu
  constructor
  · rw [hqueue, progress_release htask]
    exact h.admits.release (queue_get htask) ((settled_iff htask).mpr hsettled)
  · intro j u m hu hm
    have hold : exists u', record.tasks[j]? = some u' ∧ u'.accepted = u.accepted := by
      rcases get_set_task hu with ⟨rfl, rfl⟩ | ⟨_, hold⟩
      · exact ⟨task, htask, rfl⟩
      · exact ⟨u, hold, rfl⟩
    rcases hold with ⟨u', hu', heq⟩
    rw [← heq] at hm ⊢
    rcases h.prior j u' m hu' hm with ⟨hlt, other, hother, hconflict⟩
    by_cases hm' : m = i
    · rw [hm', htask] at hother
      rw [← Option.some.inj hother] at hconflict
      rw [hm'] at hlt ⊢
      exact ⟨hlt, _, get_set_same htask _, hconflict⟩
    · exact ⟨hlt, other, hkept hother hm', hconflict⟩
  · intro k j hget
    have hne : j ≠ i ∧ record.locks.keys.get k = some j := by
      have hleft : (record.locks.release i task.accepted.keys).keys.get k = some j := hget
      cases hkeys : task.accepted.keys with
      | none =>
          have hsame : record.locks.keys.get k = some j := by
            rw [hkeys] at hleft
            unfold Locks.release at hleft
            split_ifs at hleft <;> exact hleft
          refine ⟨?_, hsame⟩
          intro hj
          rcases h.admits.tail k j hsame with ⟨accepted, ks, haccepted, hks, _⟩
          rw [hj, queue_get htask] at haccepted
          rw [← Option.some.inj haccepted, hkeys] at hks
          cases hks
      | some keys =>
          rw [hkeys, Locks.get_release] at hleft
          split_ifs at hleft with hcond
          refine ⟨?_, hleft⟩
          intro hj
          rcases h.admits.tail k j hleft with ⟨accepted, ks, haccepted, hks, hk⟩
          rw [hj, queue_get htask] at haccepted
          rw [← Option.some.inj haccepted, hkeys] at hks
          rw [← Option.some.inj hks] at hk
          rw [hj] at hleft
          exact hcond ⟨hk, hleft⟩
    rcases h.tail k j hne.2 with ⟨u, hu, hreleased⟩
    exact ⟨u, hkept hu hne.1, hreleased⟩
  · intro j hget
    have hne : j ≠ i ∧ record.locks.barrier = some j := by
      have hleft : (record.locks.release i task.accepted.keys).barrier = some j := hget
      cases hkeys : task.accepted.keys with
      | none =>
          rw [hkeys] at hleft
          unfold Locks.release at hleft
          split_ifs at hleft with hcond
          refine ⟨?_, hleft⟩
          intro hj
          rw [hj] at hleft
          exact hcond hleft
      | some keys =>
          have hsame : record.locks.barrier = some j := by
            rw [hkeys] at hleft
            exact hleft
          refine ⟨?_, hsame⟩
          intro hj
          rcases h.admits.barrier j hsame with ⟨accepted, haccepted, hnone⟩
          rw [hj, queue_get htask] at haccepted
          rw [← Option.some.inj haccepted, hkeys] at hnone
          cases hnone
    rcases h.barrier j hne.2 with ⟨u, hu, hreleased⟩
    exact ⟨u, hkept hu hne.1, hreleased⟩
  · intro j u hu hreleased
    rcases get_set_task hu with ⟨_, rfl⟩ | ⟨_, hold⟩
    · exact hsettled
    · exact h.released j u hold hreleased

/-- Nothing of an idle record is left to settle. -/
theorem settled_of_idle (h : RecordOk record) (hidle : record.Idle)
    (htask : record.tasks[i]? = some task) : task.Settled := by
  have hno : forall k, record.locks.keys.get k = none :=
    fun k => OrderedMap.get_eq_none_of_size_zero hidle.1 k
  apply Classical.byContradiction
  intro hunsettled
  have hsettled : ¬ record.progress.settled i := fun hi => hunsettled ((settled_iff htask).mp hi)
  cases hkeys : task.accepted.keys with
  | none =>
      rcases h.admits.exclusive i _ (queue_get htask) hsettled hkeys with ⟨b, hb, _⟩
      rw [hidle.2] at hb
      cases hb
  | some keys =>
      rcases List.exists_mem_of_ne_nil keys (by
        intro hnil
        rw [hnil] at hkeys
        exact h.admits.nonempty i _ (queue_get htask) hkeys) with ⟨k, hk⟩
      rcases h.admits.key i _ keys (queue_get htask) hsettled hkeys k hk with
        ⟨tail, htail, _⟩ | ⟨b, hb, _⟩
      · rw [hno k] at htail
        cases htail
      · rw [hidle.2] at hb
        cases hb

/-- Once every task has been released the record is idle. -/
theorem idle_of_released (h : RecordOk record)
    (hall : forall (i : Nat) (task : QueuedTask), record.tasks[i]? = some task ->
      task.released = true) :
    record.Idle := by
  constructor
  · rw [OrderedMap.size_eq_zero_iff]
    intro k
    cases hget : record.locks.keys.get k with
    | none => rfl
    | some i =>
        rcases h.tail k i hget with ⟨task, htask, hreleased⟩
        rw [hall i task htask] at hreleased
        cases hreleased
  · cases hget : record.locks.barrier with
    | none => rfl
    | some i =>
        rcases h.barrier i hget with ⟨task, htask, hreleased⟩
        rw [hall i task htask] at hreleased
        cases hreleased

end RecordOk

/-!
# The whole queue
-/

theorem get_set_record {records : List PlaceLocks} {r r' : Nat} {left record : PlaceLocks}
    (h : (records.set r left)[r']? = some record) :
    (r' = r ∧ record = left) ∨ (r' ≠ r ∧ records[r']? = some record) := by
  rw [List.getElem?_set] at h
  by_cases hr : r = r'
  · rw [if_pos hr] at h
    split_ifs at h
    exact Or.inl ⟨hr.symm, (Option.some.inj h).symm⟩
  · rw [if_neg hr] at h
    exact Or.inr ⟨fun heq => hr heq.symm, h⟩

/-- The call of one task comes before that of the other. -/
def Before (c c' : Nat × Nat) : Prop := c.1 < c'.1 ∨ (c.1 = c'.1 ∧ c.2 < c'.2)

/-- The invariant of the queue. -/
structure QueueOk (q : Queue) : Prop where
  record : forall (r : Nat) (record : PlaceLocks), q.records[r]? = some record ->
    RecordOk record
  current : forall (name : PlaceName) (r : Nat), q.places.get name = some r ->
    exists record : PlaceLocks, q.records[r]? = some record ∧ record.place = name
  retired : forall (r : Nat) (record : PlaceLocks), q.records[r]? = some record ->
    q.places.get record.place ≠ some r -> record.Idle
  newest : forall (name : PlaceName) (r r' : Nat) (record : PlaceLocks),
    q.places.get name = some r -> q.records[r']? = some record -> record.place = name -> r' ≤ r
  called : forall (n : Nat) (c : Nat × Nat), q.calls[n]? = some c ->
    exists (record : PlaceLocks) (task : QueuedTask), q.records[c.1]? = some record ∧ record.tasks[c.2]? = some task
  task : forall (r i : Nat) (record : PlaceLocks) (task : QueuedTask),
    q.records[r]? = some record -> record.tasks[i]? = some task ->
      exists n : Nat, q.calls[n]? = some (r, i)
  ordered : forall (m n : Nat) (c c' : Nat × Nat) (record record' : PlaceLocks),
    q.calls[m]? = some c -> q.calls[n]? = some c' -> m < n -> q.records[c.1]? = some record ->
      q.records[c'.1]? = some record' -> record.place = record'.place -> Before c c'

/-- Every record in use holds a lock. -/
def InUse (q : Queue) : Prop :=
  forall (name : PlaceName) (r : Nat) (record : PlaceLocks), q.places.get name = some r ->
    q.records[r]? = some record -> ¬ record.Idle

namespace QueueOk

variable {q : Queue} {r i : Nat} {record left : PlaceLocks} {task : QueuedTask}

theorem new : QueueOk Queue.new := by
  constructor
  · intro r record hrecord
    cases hrecord
  · intro name r hget
    cases hget
  · intro r record hrecord
    cases hrecord
  · intro name r r' record hget
    cases hget
  · intro n c hcall
    cases hcall
  · intro r i record task hrecord
    cases hrecord
  · intro m n c c' record record' hcall
    cases hcall

/-- A record gives way to a later stage of it. -/
theorem replace (h : QueueOk q) (hrecord : q.records[r]? = some record) (hok : RecordOk left)
    (hplace : left.place = record.place) (hlength : left.tasks.length = record.tasks.length)
    {places : OrderedMap PlaceName Nat}
    (hcurrent : forall name r', places.get name = some r' -> q.places.get name = some r')
    (hothers : forall name r', r' ≠ r -> q.places.get name = some r' ->
      places.get name = some r')
    (hidle : places.get left.place ≠ some r -> left.Idle) :
    QueueOk { places := places, records := q.records.set r left, calls := q.calls } := by
  have hlt := (List.getElem?_eq_some_iff.mp hrecord).1
  have hset : (q.records.set r left)[r]? = some left := List.getElem?_set_self hlt
  have hkeep : forall r', r' ≠ r -> (q.records.set r left)[r']? = q.records[r']? :=
    fun r' hne => List.getElem?_set_ne (fun heq => hne heq.symm)
  have hback : forall {r' : Nat} {record' : PlaceLocks},
      (q.records.set r left)[r']? = some record' -> exists old, q.records[r']? = some old ∧
        old.place = record'.place ∧ record'.tasks.length = old.tasks.length := by
    intro r' record' hnew
    rcases get_set_record hnew with ⟨rfl, rfl⟩ | ⟨_, hold⟩
    · exact ⟨record, hrecord, hplace.symm, hlength⟩
    · exact ⟨record', hold, rfl, rfl⟩
  have hforth : forall {r' : Nat} {old : PlaceLocks}, q.records[r']? = some old ->
      exists record', (q.records.set r left)[r']? = some record' ∧
        record'.place = old.place ∧ record'.tasks.length = old.tasks.length := by
    intro r' old hold
    by_cases hr : r' = r
    · rw [hr, hrecord] at hold
      rw [hr, ← Option.some.inj hold]
      exact ⟨left, hset, hplace, hlength⟩
    · exact ⟨old, (hkeep r' hr).trans hold, rfl, rfl⟩
  constructor
  · intro r' record' hnew
    rcases get_set_record hnew with ⟨_, rfl⟩ | ⟨_, hold⟩
    · exact hok
    · exact h.record r' record' hold
  · intro name r' hget
    rcases h.current name r' (hcurrent name r' hget) with ⟨old, hold, hname⟩
    rcases hforth hold with ⟨record', hnew, hsame, _⟩
    exact ⟨record', hnew, hsame.trans hname⟩
  · intro r' record' hnew hnot
    rcases get_set_record hnew with ⟨rfl, rfl⟩ | ⟨hne, hold⟩
    · exact hidle hnot
    · exact h.retired r' record' hold (fun hget => hnot (hothers _ r' hne hget))
  · intro name r' r'' record' hget hnew hname
    rcases hback hnew with ⟨old, hold, hsame, _⟩
    exact h.newest name r' r'' old (hcurrent name r' hget) hold (hsame.trans hname)
  · intro n c hcall
    rcases h.called n c hcall with ⟨old, task, hold, htask⟩
    rcases hforth hold with ⟨record', hnew, _, hlen⟩
    have hin : c.2 < record'.tasks.length := by
      rw [hlen]
      exact (List.getElem?_eq_some_iff.mp htask).1
    exact ⟨record', record'.tasks[c.2], hnew, List.getElem?_eq_getElem hin⟩
  · intro r' i record' task hnew htask
    rcases hback hnew with ⟨old, hold, _, hlen⟩
    have hin : i < old.tasks.length := by
      rw [← hlen]
      exact (List.getElem?_eq_some_iff.mp htask).1
    exact h.task r' i old old.tasks[i] hold (List.getElem?_eq_getElem hin)
  · intro m n c c' record' record'' hm hn hlt' hrecord' hrecord'' hsame
    rcases hback hrecord' with ⟨old, hold, hplace', _⟩
    rcases hback hrecord'' with ⟨old', hold', hplace'', _⟩
    exact h.ordered m n c c' old old' hm hn hlt' hold hold'
      (hplace'.trans (hsame.trans hplace''.symm))

/-- A task of a record goes on. -/
theorem put (h : QueueOk q) (hrecord : q.records[r]? = some record) (hok : RecordOk left)
    (hplace : left.place = record.place) (hlength : left.tasks.length = record.tasks.length)
    (hlocks : left.locks = record.locks) : QueueOk (q.put r left) := by
  have hidle : left.Idle <-> record.Idle := by
    unfold PlaceLocks.Idle
    rw [hlocks]
  refine h.replace hrecord hok hplace hlength (fun name r' hget => hget)
    (fun name r' _ hget => hget) ?_
  intro hnot
  rw [hplace] at hnot
  exact hidle.mpr (h.retired r record hrecord hnot)

theorem inUse_put (hin : InUse q) (hrecord : q.records[r]? = some record)
    (hlocks : left.locks = record.locks) : InUse (q.put r left) := by
  intro name r' record' hget hnew
  rcases get_set_record hnew with ⟨rfl, rfl⟩ | ⟨_, hold⟩
  · unfold PlaceLocks.Idle
    rw [hlocks]
    exact hin name r' record hget hrecord
  · exact hin name r' record' hget hold

/-- Releasing takes no lock. -/
theorem idle_release (hidle : record.Idle) (i : Nat) (task : QueuedTask) :
    (record.release i task).Idle := by
  show (record.locks.release i task.accepted.keys).keys.size = 0 ∧
    (record.locks.release i task.accepted.keys).barrier = none
  cases task.accepted.keys with
  | none =>
      unfold Locks.release
      rw [hidle.2]
      exact hidle
  | some keys =>
      refine ⟨?_, hidle.2⟩
      rw [OrderedMap.size_eq_zero_iff]
      intro k
      rw [Locks.get_release]
      split_ifs
      · rfl
      · exact OrderedMap.get_eq_none_of_size_zero hidle.1 k

/-- {lit}`#release` drops the record of a place exactly when it is empty. -/
theorem release (h : QueueOk q) (hin : InUse q) (hrecord : q.records[r]? = some record)
    (htask : record.tasks[i]? = some task) (hsettled : task.Settled) :
    QueueOk (q.release r i record task) ∧ InUse (q.release r i record task) := by
  have hok := (h.record r record hrecord).release htask hsettled
  have hlength : (record.release i task).tasks.length = record.tasks.length := List.length_set
  have hname : forall name, q.places.get name = some r -> record.place = name := by
    intro name hget
    rcases h.current name r hget with ⟨record', hrecord', hplace⟩
    rw [hrecord] at hrecord'
    rw [Option.some.inj hrecord']
    exact hplace
  unfold Queue.release
  by_cases hdrop : (record.release i task).Idle ∧ q.places.get record.place = some r
  · rw [if_pos hdrop]
    have hdeleted : forall name r', (q.places.delete record.place).get name = some r' ->
        name ≠ record.place ∧ q.places.get name = some r' := by
      intro name r' hget
      rw [OrderedMap.get_delete] at hget
      split_ifs at hget with hsame
      exact ⟨hsame, hget⟩
    constructor
    · refine h.replace hrecord hok rfl hlength (fun name r' hget => (hdeleted name r' hget).2)
        ?_ (fun _ => hdrop.1)
      intro name r' hne hget
      rw [OrderedMap.get_delete, if_neg, hget]
      intro hsame
      rw [hsame, hdrop.2] at hget
      exact hne (Option.some.inj hget).symm
    · intro name r' record' hget hnew
      rcases hdeleted name r' hget with ⟨hother, hold⟩
      rcases get_set_record hnew with ⟨rfl, _⟩ | ⟨_, hrecord'⟩
      · exact absurd (hname name hold).symm hother
      · exact hin name r' record' hold hrecord'
  · rw [if_neg hdrop]
    constructor
    · refine h.replace hrecord hok rfl hlength (fun name r' hget => hget)
        (fun name r' _ hget => hget) ?_
      intro hnot
      exact idle_release (h.retired r record hrecord hnot) i task
    · intro name r' record' hget hnew
      rcases get_set_record hnew with ⟨rfl, rfl⟩ | ⟨_, hrecord'⟩
      · intro hidle
        rw [← hname name hget] at hget
        exact hdrop ⟨hidle, hget⟩
      · exact hin name r' record' hget hrecord'

/-- {lit}`#locks` finds the record of the place, or makes it. -/
theorem locks (h : QueueOk q) (place : PlaceName) :
    QueueOk (q.locks place).1 ∧ (q.locks place).1.places.get place = some (q.locks place).2 ∧
      forall name r, name ≠ place -> (q.locks place).1.places.get name = some r ->
        q.places.get name = some r ∧ (q.locks place).1.records[r]? = q.records[r]? := by
  unfold Queue.locks
  cases hget : q.places.get place with
  | some r => exact ⟨h, hget, fun name r' _ hget' => ⟨hget', rfl⟩⟩
  | none =>
      have hold : forall {r : Nat} {record : PlaceLocks}, q.records[r]? = some record ->
          (q.records ++ [PlaceLocks.new place])[r]? = some record := by
        intro r record hrecord
        rw [List.getElem?_append_left (List.getElem?_eq_some_iff.mp hrecord).1]
        exact hrecord
      have hsplit : forall {r : Nat} {record : PlaceLocks},
          (q.records ++ [PlaceLocks.new place])[r]? = some record ->
            q.records[r]? = some record ∨
              (r = q.records.length ∧ record = PlaceLocks.new place) := by
        intro r record hrecord
        rcases Nat.lt_trichotomy r q.records.length with hlt | heq | hgt
        · rw [List.getElem?_append_left hlt] at hrecord
          exact Or.inl hrecord
        · rw [heq, List.getElem?_concat_length] at hrecord
          exact Or.inr ⟨heq, (Option.some.inj hrecord).symm⟩
        · rw [List.getElem?_eq_none (by rw [List.length_append]; exact hgt)] at hrecord
          cases hrecord
      have hother : forall {name : PlaceName} {r : Nat}, name ≠ place ->
          (q.places.set place q.records.length).get name = some r ->
            q.places.get name = some r := by
        intro name r hne hname
        rw [OrderedMap.get_set_ne _ _ hne] at hname
        exact hname
      refine ⟨?_, OrderedMap.get_set_self _ _ _, ?_⟩
      · constructor
        · intro r record hrecord
          rcases hsplit hrecord with hrecord' | ⟨_, rfl⟩
          · exact h.record r record hrecord'
          · exact RecordOk.new place
        · intro name r hname
          by_cases hplace : name = place
          · rw [hplace, OrderedMap.get_set_self] at hname
            rw [← Option.some.inj hname, hplace]
            exact ⟨_, List.getElem?_concat_length, rfl⟩
          · rcases h.current name r (hother hplace hname) with ⟨record, hrecord, hsame⟩
            exact ⟨record, hold hrecord, hsame⟩
        · intro r record hrecord hnot
          rcases hsplit hrecord with hrecord' | ⟨rfl, rfl⟩
          · apply h.retired r record hrecord'
            intro hcurrent
            apply hnot
            rw [OrderedMap.get_set_ne, hcurrent]
            intro hsame
            rw [hsame, hget] at hcurrent
            cases hcurrent
          · exact absurd (OrderedMap.get_set_self _ _ _) hnot
        · intro name r r' record hname hrecord hsame
          by_cases hplace : name = place
          · rw [hplace, OrderedMap.get_set_self] at hname
            rw [← Option.some.inj hname]
            have hlt := (List.getElem?_eq_some_iff.mp hrecord).1
            rw [List.length_append] at hlt
            exact Nat.lt_succ_iff.mp hlt
          · rcases hsplit hrecord with hrecord' | ⟨_, rfl⟩
            · exact h.newest name r r' record (hother hplace hname) hrecord' hsame
            · exact absurd hsame.symm hplace
        · intro n c hcall
          rcases h.called n c hcall with ⟨record, task, hrecord, htask⟩
          exact ⟨record, task, hold hrecord, htask⟩
        · intro r i record task hrecord htask
          rcases hsplit hrecord with hrecord' | ⟨_, rfl⟩
          · exact h.task r i record task hrecord' htask
          · cases htask
        · intro m n c c' record record' hm hn hlt hrecord hrecord' hsame
          have hcalled : forall {n : Nat} {c : Nat × Nat} {record : PlaceLocks},
              q.calls[n]? = some c ->
                (q.records ++ [PlaceLocks.new place])[c.1]? = some record ->
                  q.records[c.1]? = some record := by
            intro n c record hcall hnew
            rcases h.called n c hcall with ⟨record', _, hrecord', _⟩
            rw [hold hrecord'] at hnew
            rw [← hnew]
            exact hrecord'
          exact h.ordered m n c c' record record' hm hn hlt (hcalled hm hrecord)
            (hcalled hn hrecord') hsame
      · intro name r hne hname
        have hname' := hother hne hname
        rcases h.current name r hname' with ⟨record, hrecord, _⟩
        exact ⟨hname', (hold hrecord).trans hrecord.symm⟩

theorem accept (h : QueueOk q) {place : PlaceName} (hget : q.places.get place = some r)
    {keys : Option (List Key)} (hkeys : keys ≠ some []) : QueueOk (q.accept r keys) := by
  rcases h.current place r hget with ⟨record, hrecord, hplace⟩
  have hlt := (List.getElem?_eq_some_iff.mp hrecord).1
  have haccept : q.accept r keys =
      { places := q.places
        records := q.records.set r (record.enqueue keys)
        calls := q.calls ++ [(r, record.tasks.length)] } := by
    unfold Queue.accept
    rw [hrecord]
    rfl
  have hset : (q.records.set r (record.enqueue keys))[r]? = some (record.enqueue keys) :=
    List.getElem?_set_self hlt
  have hforth : forall {r' : Nat} {old : PlaceLocks}, q.records[r']? = some old ->
      exists record' : PlaceLocks,
        (q.records.set r (record.enqueue keys))[r']? = some record' ∧
          record'.place = old.place ∧ forall (i : Nat) (task : QueuedTask),
            old.tasks[i]? = some task -> record'.tasks[i]? = some task := by
    intro r' old hold
    by_cases hr : r' = r
    · rw [hr, hrecord] at hold
      rw [hr, ← Option.some.inj hold]
      exact ⟨_, hset, rfl, fun i task htask => PlaceLocks.get_enqueue htask⟩
    · exact ⟨old, (List.getElem?_set_ne (fun heq => hr heq.symm)).trans hold, rfl,
        fun i task htask => htask⟩
  have hback : forall {r' : Nat} {record' : PlaceLocks},
      (q.records.set r (record.enqueue keys))[r']? = some record' -> exists old,
        q.records[r']? = some old ∧ old.place = record'.place := by
    intro r' record' hnew
    rcases get_set_record hnew with ⟨rfl, rfl⟩ | ⟨_, hold⟩
    · exact ⟨record, hrecord, rfl⟩
    · exact ⟨record', hold, rfl⟩
  have hcalls : forall {n : Nat} {c : Nat × Nat},
      (q.calls ++ [(r, record.tasks.length)])[n]? = some c ->
        q.calls[n]? = some c ∨ (n = q.calls.length ∧ c = (r, record.tasks.length)) := by
    intro n c hcall
    rcases Nat.lt_trichotomy n q.calls.length with hn | hn | hn
    · rw [List.getElem?_append_left hn] at hcall
      exact Or.inl hcall
    · rw [hn, List.getElem?_concat_length] at hcall
      exact Or.inr ⟨hn, (Option.some.inj hcall).symm⟩
    · rw [List.getElem?_eq_none (by rw [List.length_append]; exact hn)] at hcall
      cases hcall
  have hold : forall {n : Nat} {c : Nat × Nat}, q.calls[n]? = some c ->
      (q.calls ++ [(r, record.tasks.length)])[n]? = some c := by
    intro n c hcall
    rw [List.getElem?_append_left (List.getElem?_eq_some_iff.mp hcall).1]
    exact hcall
  rw [haccept]
  constructor
  · intro r' record' hnew
    rcases get_set_record hnew with ⟨_, rfl⟩ | ⟨_, hold'⟩
    · exact (h.record r record hrecord).enqueue hkeys
    · exact h.record r' record' hold'
  · intro name r' hname
    rcases h.current name r' hname with ⟨old, hold', hsame⟩
    rcases hforth hold' with ⟨record', hnew, hsame', _⟩
    exact ⟨record', hnew, hsame'.trans hsame⟩
  · intro r' record' hnew hnot
    rcases get_set_record hnew with ⟨rfl, rfl⟩ | ⟨_, hold'⟩
    · have hnone : q.places.get record.place ≠ some r' := hnot
      rw [hplace] at hnone
      exact absurd hget hnone
    · exact h.retired r' record' hold' hnot
  · intro name r' r'' record' hname hnew hsame
    rcases hback hnew with ⟨old, hold', hsame'⟩
    exact h.newest name r' r'' old hname hold' (hsame'.trans hsame)
  · intro n c hcall
    rcases hcalls hcall with hcall' | ⟨_, rfl⟩
    · rcases h.called n c hcall' with ⟨old, task, hold', htask⟩
      rcases hforth hold' with ⟨record', hnew, _, htasks⟩
      exact ⟨record', task, hnew, htasks _ _ htask⟩
    · exact ⟨_, _, hset, PlaceLocks.enqueue_last⟩
  · intro r' i record' task hnew htask
    rcases get_set_record hnew with ⟨rfl, rfl⟩ | ⟨_, hold'⟩
    · rcases PlaceLocks.enqueue_get htask with htask' | ⟨rfl, _⟩
      · rcases h.task r' i record task hrecord htask' with ⟨n, hn⟩
        exact ⟨n, hold hn⟩
      · exact ⟨q.calls.length, List.getElem?_concat_length⟩
    · rcases h.task r' i record' task hold' htask with ⟨n, hn⟩
      exact ⟨n, hold hn⟩
  · intro m n c c' record' record'' hm hn hlt' hrecord' hrecord'' hsame
    rcases hback hrecord' with ⟨old, hold', hplace'⟩
    rcases hback hrecord'' with ⟨old', hold'', hplace''⟩
    have hsame' := hplace'.trans (hsame.trans hplace''.symm)
    rcases hcalls hm with hm' | ⟨rfl, _⟩
    · rcases hcalls hn with hn' | ⟨_, rfl⟩
      · exact h.ordered m n c c' old old' hm' hn' hlt' hold' hold'' hsame'
      · -- the new task comes last in the record in use, which is the newest of the place
        have hcurrent : old' = record := Option.some.inj (hold''.symm.trans hrecord)
        rw [hcurrent, hplace] at hsame'
        rcases Nat.lt_or_eq_of_le (h.newest place r c.1 old hget hold' hsame') with hless | heq
        · exact Or.inl hless
        · right
          refine ⟨heq, ?_⟩
          rcases h.called m c hm' with ⟨record₀, task, hrecord₀, htask⟩
          rw [heq, hrecord] at hrecord₀
          rw [← Option.some.inj hrecord₀] at htask
          exact (List.getElem?_eq_some_iff.mp htask).1
    · rcases hcalls hn with hn' | ⟨rfl, _⟩
      · exact absurd (List.getElem?_eq_some_iff.mp hn').1 (by omega)
      · exact absurd hlt' (Nat.lt_irrefl _)

/-- A record with a task just queued is not empty. -/
theorem not_idle_enqueue {keys : Option (List Key)} (hkeys : keys ≠ some []) :
    ¬ (record.enqueue keys).Idle := by
  intro hidle
  cases keys with
  | none => cases hidle.2
  | some keys =>
      rcases List.exists_mem_of_ne_nil keys (fun hnil => hkeys (congrArg some hnil)) with ⟨k, hk⟩
      have hget : (record.locks.acquire record.tasks.length (some keys)).keys.get k =
          some record.tasks.length := by
        rw [Locks.get_acquire, if_pos hk]
      have hnone := OrderedMap.get_eq_none_of_size_zero hidle.1 k
      rw [show (record.enqueue (some keys)).locks.keys.get k = _ from hget] at hnone
      cases hnone

theorem run (h : QueueOk q) (hin : InUse q) (request : Request) :
    QueueOk (q.run request) ∧ InUse (q.run request) := by
  rcases h.locks request.place with ⟨hok, hget, hothers⟩
  refine ⟨hok.accept hget request.touches, ?_⟩
  rcases hok.current request.place _ hget with ⟨record, hrecord, hplace⟩
  have hrun : q.run request =
      { places := (q.locks request.place).1.places
        records := (q.locks request.place).1.records.set (q.locks request.place).2
          (record.enqueue request.keys)
        calls := (q.locks request.place).1.calls ++
          [((q.locks request.place).2, record.tasks.length)] } := by
    show (q.locks request.place).1.accept (q.locks request.place).2 request.keys = _
    unfold Queue.accept
    rw [hrecord]
    rfl
  rw [hrun]
  intro name r record' hname hnew
  rcases get_set_record hnew with ⟨_, rfl⟩ | ⟨hne, hold⟩
  · exact not_idle_enqueue request.touches
  · have hother : name ≠ request.place := by
      intro hsame
      rw [hsame] at hname
      exact hne (Option.some.inj (hname.symm.trans hget))
    rcases hothers name r hother hname with ⟨hname', hsame⟩
    rw [hsame] at hold
    exact hin name r record' hname' hold

theorem advance (h : QueueOk q) (hin : InUse q) {q' : Queue} (hstep : Queue.Advance q q') :
    QueueOk q' ∧ InUse q' := by
  cases hstep with
  | start r i record task hrecord htask hrun =>
      exact ⟨h.put hrecord ((h.record r record hrecord).start htask hrun) rfl List.length_set rfl,
        inUse_put hin hrecord rfl⟩
  | settle r i record task failed hrecord htask hrunning =>
      exact ⟨h.put hrecord ((h.record r record hrecord).settle htask hrunning failed) rfl
        List.length_set rfl, inUse_put hin hrecord rfl⟩
  | release r i record task hrecord htask hsettled _ =>
      exact h.release hin hrecord htask hsettled

end QueueOk

theorem Queue.Reachable.ok {q : Queue} (h : Queue.Reachable q) : QueueOk q ∧ InUse q := by
  induction h with
  | new =>
      refine ⟨QueueOk.new, ?_⟩
      intro name r record hget
      cases hget
  | run request _ ih => exact ih.1.run ih.2 request
  | advance _ hstep ih => exact ih.1.advance ih.2 hstep

end MutationQueue

end SharedMemoryFs
