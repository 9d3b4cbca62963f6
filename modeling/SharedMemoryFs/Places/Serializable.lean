import SharedMemoryFs.Places.Overlap
import SharedMemoryFs.Places.SabSchedule

/-!
# What overlapping mutations add up to

Once every mutation has settled, the place holds what its successful mutations
leave when they run one after another in the order of their commits.  At every
moment a path is a file or a directory, whichever store keeps the place.
-/

namespace SharedMemoryFs

open Foundation PlaceFiles

namespace SabPlace

/-- Every mutation that was requested has settled. -/
def Settled (s : SabPlace) : Prop :=
  forall task, task ∈ s.tasks -> exists result, task.status = Status.settled result

/-- Two successful mutations that the queue keeps in the order of acceptance: they
share a key, or one of them is a subtree operation. -/
def Committed.Ordered (a b : Committed) : Prop :=
  (exists key, key ∈ a.op.keys ∧ key ∈ b.op.keys) ∨ a.Subtree ∨ b.Subtree

variable {place : Place} {initial : Files} {s : SabPlace}

/-- A mutation succeeded exactly if the log of commits holds it. -/
theorem Overlap.succeeded_iff (h : Overlap place initial s) {id : Nat} {task : MutationTask}
    (hget : s.tasks[id]? = some task) :
    task.status.Succeeded <-> exists c, c ∈ s.log ∧ c.task = id ∧ c.op = task.op := by
  constructor
  · intro hsucceeded
    rcases h.complete id task hget hsucceeded with ⟨c, hc, hid⟩
    rcases h.logged c hc with ⟨task', hget', _, hop, _⟩
    rw [hid, hget] at hget'
    rw [← Option.some.inj hget'] at hop
    exact ⟨c, hc, hid, hop⟩
  · intro hlog
    rcases hlog with ⟨c, hc, hid, _⟩
    rcases h.logged c hc with ⟨task', hget', hsucceeded, _, _⟩
    rw [hid, hget] at hget'
    rw [Option.some.inj hget']
    exact hsucceeded

theorem settled_succeeded_iff {status : Status} {result : Except Refusal Unit}
    (h : status = Status.settled result) :
    status.Succeeded <-> status = Status.settled (Except.ok ()) := by
  constructor
  · intro hsucceeded
    rcases hsucceeded with ⟨creating, hended⟩ | hsettled
    · rw [h] at hended
      cases hended
    · exact hsettled
  · exact fun hsettled => Or.inr hsettled

/-- A logged mutation holds the locks of its keys, or the whole place. -/
theorem Overlap.logged_keys (h : Overlap place initial s) {c : Committed} (hc : c ∈ s.log) :
    c.keys = none ∨ c.keys = some c.op.keys := by
  rcases h.logged c hc with ⟨task, hget, _, hop, hkeys⟩
  rw [hop, hkeys]
  exact h.locked c.task task hget

theorem Overlap.conflict_of_ordered (h : Overlap place initial s) {a b : Committed}
    (ha : a ∈ s.log) (hb : b ∈ s.log) (hordered : Committed.Ordered a b) :
    Conflict a.keys b.keys := by
  rcases hordered with ⟨key, hkeya, hkeyb⟩ | hsubtree | hsubtree
  · rcases h.logged_keys ha with hnone | ha
    · rw [hnone]
      exact conflict_none_left _
    · rcases h.logged_keys hb with hnone | hb
      · rw [hnone]
        exact conflict_none_right _
      · rw [ha, hb]
        exact ⟨key, hkeya, hkeyb⟩
  · rw [h.subtree a ha hsubtree]
    exact conflict_none_left _
  · rw [h.subtree b hb hsubtree]
    exact conflict_none_right _

/-- Settled mutations are serializable in the order of their commits: running the
successful ones one after another succeeds and leaves the projection of the place,
and those that share a key or move a subtree commit in the order of acceptance. -/
theorem mutations_serializable (hinitial : MapStore.Kept initial)
    (h : Reachable place initial s) (hsettled : s.Settled) :
    replay place initial s.log = Except.ok s.files ∧
      (forall (id : Nat) (task : MutationTask), s.tasks[id]? = some task ->
        (task.status = Status.settled (Except.ok ()) <->
          exists c, c ∈ s.log ∧ c.task = id ∧ c.op = task.op)) ∧
      (forall c, c ∈ s.log -> c.task < s.tasks.length) ∧
      (s.log.map Committed.task).Nodup ∧
      s.log.Pairwise (fun a b => Committed.Ordered a b -> a.task < b.task) := by
  have hoverlap := h.overlap hinitial
  refine ⟨hoverlap.replays, ?_, ?_, hoverlap.once, ?_⟩
  · intro id task hget
    rcases hsettled task (List.mem_of_getElem? hget) with ⟨result, hstatus⟩
    rw [← settled_succeeded_iff hstatus]
    exact hoverlap.succeeded_iff hget
  · intro c hc
    rcases hoverlap.logged c hc with ⟨task, hget, _⟩
    exact (List.getElem?_eq_some_iff.mp hget).1
  · refine List.Pairwise.imp_of_mem ?_ hoverlap.ordered
    intro a b ha hb hordered hshare
    exact hordered (hoverlap.conflict_of_ordered ha hb hshare)

/-!
# An example run

Two files are created at the same time, the second commits first, and a third
mutation waits for the first one.
-/

def demoConfig : PlaceConfig :=
  { name := "demo"
    maxFileSize := 8
    require := none
    fs := none
    prepare := [] }

def demoPlace : Place :=
  { config := demoConfig
    root := "/demo"
    fileExt := fun _ => ""
    registered := fun _ => none
    compileRequire := fun _ _ => none
    compileScript := fun _ _ => none }

def demoSchedule : List Action :=
  [Action.request (Mutation.write ['/', 'a'] [1] true),
    Action.request (Mutation.write ['/', 'b'] [2] false),
    Action.request (Mutation.append ['/', 'a'] [3]),
    Action.start 0 0, Action.start 1 1,
    Action.commit 1 (plainEnv 1), Action.commit 0 (plainEnv 0),
    Action.settle 0, Action.release 0, Action.settle 1,
    Action.start 2 2, Action.commit 2 (plainEnv 2), Action.settle 2]

def demo : SabPlace :=
  (SabPlace.initial PlaceFiles.empty).runSchedule demoPlace demoSchedule

theorem demo_reachable : Reachable demoPlace PlaceFiles.empty demo :=
  Reachable.initial.schedule demoSchedule

def settledTasks (s : SabPlace) : Bool :=
  s.tasks.all (fun task => (MutationTask.result task).isSome)

theorem settled_of_settledTasks (h : settledTasks s = true) : s.Settled := by
  intro task htask
  rcases Option.isSome_iff_exists.mp (List.all_eq_true.mp h task htask) with ⟨result, hresult⟩
  exact ⟨result, result_eq_some hresult⟩

theorem mutations_serializable_demo :
    demo.Settled ∧ demo.log.map Committed.task = [1, 0, 2] ∧
      replay demoPlace PlaceFiles.empty demo.log = Except.ok demo.files :=
  ⟨settled_of_settledTasks (by decide), by decide,
    (mutations_serializable MapStore.Kept.empty demo_reachable
      (settled_of_settledTasks (by decide))).1⟩

end SabPlace

/-!
# Files and directories
-/

/-- A path is a file or a directory, never both: in every state of a map place that
started empty, and in every state of a shared place that did, the keys in flight
counting as files. -/
theorem path_is_file_or_directory (place : Place) :
    (forall files, MapStore.Reachable place PlaceFiles.empty files ->
      PrefixFree slash (fun key => files.hasSource key = true)) ∧
    (forall s, SabPlace.Reachable place PlaceFiles.empty s ->
      PrefixFree slash (fun key => s.files.hasSource key = true ∨ key ∈ s.creating)) := by
  constructor
  · intro files h
    have hkept := h.kept MapStore.Kept.empty
    apply PrefixFree.mono hkept.hierarchical
    exact fun key hkey => Or.inl hkey
  · intro s h
    exact (h.overlap MapStore.Kept.empty).hierarchical

theorem path_is_file_or_directory_demo :
    SabPlace.demo.files.hasSource ['/', 'b'] = true ∧
      PrefixFree slash
        (fun key => SabPlace.demo.files.hasSource key = true ∨ key ∈ SabPlace.demo.creating) :=
  ⟨by decide,
    (path_is_file_or_directory SabPlace.demoPlace).2 SabPlace.demo SabPlace.demo_reachable⟩

end SharedMemoryFs
