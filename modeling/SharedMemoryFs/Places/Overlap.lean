import SharedMemoryFs.Places.Turn

/-!
# Overlapping mutations

The invariant of a shared virtual place while its mutations overlap.  Whatever is
running would still pass its checks in the state it will be committed to, because
nothing it conflicts with runs at the same time and the keys in flight count as
files.  From it, what the whole run did is what its commits did one by one.
-/

namespace SharedMemoryFs

open Foundation PlaceFiles

/-- The key a task keeps in {lit}`#creating`. -/
def Status.creates : Status -> Option Key
  | Status.storing target _ _ _ => some target
  | Status.ended creating _ => creating
  | _ => none

def Status.Succeeded (status : Status) : Prop :=
  (exists creating, status = Status.ended creating (Except.ok ())) ∨
    status = Status.settled (Except.ok ())

/-- Run the given mutations one after another; all of them succeed. -/
def replay (place : Place) (files : Files) : List Committed -> Except Refusal Files
  | [] => Except.ok files
  | c :: rest =>
      match SabStore.run place files c.env c.op with
      | (_, Except.error refusal) => Except.error refusal
      | (files, Except.ok ()) => replay place files rest

theorem replay_concat {place : Place} {files files' : Files} {log : List Committed}
    (h : replay place files log = Except.ok files') (c : Committed) {files'' : Files}
    (hc : SabStore.run place files' c.env c.op = (files'', Except.ok ())) :
    replay place files (log ++ [c]) = Except.ok files'' := by
  induction log generalizing files with
  | nil =>
      rw [replay, Except.ok.injEq] at h
      rw [List.nil_append, replay, h, hc]
      rfl
  | cons d rest ih =>
      rw [List.cons_append]
      unfold replay at h ⊢
      rcases hrun : SabStore.run place files d.env d.op with ⟨next, refusal | _⟩
      · rw [hrun] at h
        cases h
      · rw [hrun] at h
        exact ih h

namespace SabPlace

def progressed (tasks : List MutationTask) : Progressed :=
  { started := fun id => exists task, tasks[id]? = some task ∧ task.status ≠ Status.queued
    settled := fun id => exists task result, tasks[id]? = some task ∧
      task.status = Status.settled result }

/-- A running task would start the same way in the state it commits to. -/
def Valid (place : Place) (files : Files) (creating : List Key) (task : MutationTask)
    (status : Status) : Prop :=
  match status with
  | Status.queued => True
  | Status.storing target input removed now =>
      target ∈ creating ∧
        SabStore.start place files [] task.queue.keys.isSome now task.op =
          Except.ok (SabStore.Plan.publish target (Except.ok input) removed)
  | Status.copying copies rest now =>
      exists done,
        SabStore.start place files [] task.queue.keys.isSome now task.op =
          Except.ok (SabStore.Plan.move (done ++ rest)) ∧
        SabStore.copiesOf files (plainEnv now) done = Except.ok copies
  | Status.ended creating _ => forall key, creating = some key -> key ∈ task.op.keys
  | Status.settled _ => True

/-- The invariant of a run that started with the projection {lit}`initial`. -/
structure Overlap (place : Place) (initial : Files) (s : SabPlace) : Prop where
  canonical : forall (id : Nat) (task : MutationTask), s.tasks[id]? = some task ->
    task.op.Canonical
  locked : forall (id : Nat) (task : MutationTask), s.tasks[id]? = some task ->
    task.queue.keys = none ∨ task.queue.keys = some task.op.keys
  removal : forall (id : Nat) (task : MutationTask) (key : Key)
    (directory force recursive : Bool), s.tasks[id]? = some task ->
    task.op = Mutation.rm key directory force recursive -> task.queue.keys = none
  admits : Admits s.locks (s.tasks.map MutationTask.queue) (progressed s.tasks)
  wellFormed : s.files.WellFormed
  hierarchical : Hierarchical s.files s.creating
  creating : forall key, key ∈ s.creating -> exists (id : Nat) (task : MutationTask),
    s.tasks[id]? = some task ∧ task.status.creates = some key
  valid : forall (id : Nat) (task : MutationTask), s.tasks[id]? = some task ->
    Valid place s.files s.creating task task.status
  replays : replay place initial s.log = Except.ok s.files
  logged : forall c, c ∈ s.log -> exists task, s.tasks[c.task]? = some task ∧
    task.status.Succeeded ∧ c.op = task.op ∧ c.keys = task.queue.keys
  complete : forall (id : Nat) (task : MutationTask), s.tasks[id]? = some task ->
    task.status.Succeeded -> exists c, c ∈ s.log ∧ c.task = id
  once : (s.log.map Committed.task).Nodup
  ordered : s.log.Pairwise (fun a b => Conflict a.keys b.keys -> a.task < b.task)
  subtree : forall c, c ∈ s.log -> c.Subtree -> c.keys = none

/-!
# One task goes on
-/

theorem get_set {tasks : List MutationTask} {id j : Nat} {task u : MutationTask}
    (h : (tasks.set id task)[j]? = some u) :
    (j = id ∧ u = task) ∨ (j ≠ id ∧ tasks[j]? = some u) := by
  rw [List.getElem?_set] at h
  by_cases hj : id = j
  · rw [if_pos hj] at h
    split_ifs at h
    exact Or.inl ⟨hj.symm, (Option.some.inj h).symm⟩
  · rw [if_neg hj] at h
    exact Or.inr ⟨fun heq => hj heq.symm, h⟩

theorem get_set_self {tasks : List MutationTask} {id : Nat} {task : MutationTask}
    (h : tasks[id]? = some task) (task' : MutationTask) :
    (tasks.set id task')[id]? = some task' := by
  rw [List.getElem?_set_self (List.getElem?_eq_some_iff.mp h).1]

theorem get_set_ne {tasks : List MutationTask} {id j : Nat} (hne : j ≠ id)
    (task' : MutationTask) : (tasks.set id task')[j]? = tasks[j]? :=
  List.getElem?_set_ne (fun heq => hne heq.symm)

theorem queue_get {tasks : List MutationTask} {id : Nat} {task : MutationTask}
    (h : tasks[id]? = some task) : (tasks.map MutationTask.queue)[id]? = some task.queue := by
  rw [List.getElem?_map, h]
  rfl

theorem queues_set {tasks : List MutationTask} {id : Nat} {task : MutationTask}
    (h : tasks[id]? = some task) (status : Status) :
    (tasks.set id { task with status := status }).map MutationTask.queue =
      tasks.map MutationTask.queue := by
  apply List.ext_getElem?
  intro j
  rw [List.getElem?_map, List.getElem?_map]
  by_cases hj : j = id
  · rw [hj, get_set_self h, h]
    rfl
  · rw [get_set_ne hj]

/-- What a step of one task does to the projection and the log: nothing, or one
commit that is the whole mutation run on its own. -/
inductive Logs (place : Place) (s : SabPlace) (id : Nat) (task : MutationTask)
    (status : Status) (files : Files) (log : List Committed) : Prop where
  | kept : log = s.log -> files = s.files ->
      (status.Succeeded <-> task.status.Succeeded) -> Logs place s id task status files log
  | commits (env : Env) (tree : Bool) :
      log = s.log ++
        [{ task := id, op := task.op, keys := task.queue.keys, env := env, tree := tree }] ->
      SabStore.run place s.files env task.op = (files, Except.ok ()) ->
      status.Succeeded -> ¬ task.status.Succeeded ->
      (tree = true -> task.queue.keys = none) -> Logs place s id task status files log

/-- Every earlier task that conflicts with the given one has settled. -/
def Earlier (s : SabPlace) (id : Nat) (task : MutationTask) : Prop :=
  forall i u, (s.tasks.map MutationTask.queue)[i]? = some u -> i < id ->
    Conflict u.keys task.queue.keys -> (progressed s.tasks).settled i

namespace Overlap

variable {place : Place} {initial : Files} {s : SabPlace} {id j : Nat}
  {task u : MutationTask}

/-- No other task that has started and not settled conflicts with one that is the
first of its conflicts. -/
theorem alone (h : Overlap place initial s) (ht : s.tasks[id]? = some task)
    (hunsettled : forall result, task.status ≠ Status.settled result)
    (hearlier : Earlier s id task) (hu : s.tasks[j]? = some u) (hne : j ≠ id)
    (hstarted : u.status ≠ Status.queued)
    (hrunning : forall result, u.status ≠ Status.settled result) :
    ¬ Conflict task.queue.keys u.queue.keys := by
  have hopen : forall {i : Nat} {t : MutationTask}, s.tasks[i]? = some t ->
      (forall result, t.status ≠ Status.settled result) -> ¬ (progressed s.tasks).settled i := by
    intro i t hget hnot hsettled
    rcases hsettled with ⟨t', result, hget', hstatus⟩
    rw [hget, Option.some.injEq] at hget'
    rw [← hget'] at hstatus
    exact hnot result hstatus
  intro hconflict
  rcases Nat.lt_or_gt_of_ne hne with hlt | hgt
  · exact hopen hu hrunning (hearlier j u.queue (queue_get hu) hlt hconflict.symm)
  · exact hopen ht hunsettled
      (h.admits.ordered id j task.queue u.queue (queue_get ht) (queue_get hu) hgt hconflict
        ⟨u, hu, hstarted⟩)

/-- Tasks that do not conflict lock the keys of their mutations, and share none. -/
theorem disjoint (h : Overlap place initial s) (ht : s.tasks[id]? = some task)
    (hu : s.tasks[j]? = some u) (hfree : ¬ Conflict task.queue.keys u.queue.keys) :
    task.queue.keys ≠ none ∧ u.queue.keys ≠ none ∧
      forall key, key ∈ u.op.keys -> key ∉ task.op.keys := by
  have hnone : task.queue.keys ≠ none := by
    intro heq
    rw [heq] at hfree
    exact hfree (conflict_none_left _)
  have hnone' : u.queue.keys ≠ none := by
    intro heq
    rw [heq] at hfree
    exact hfree (conflict_none_right _)
  refine ⟨hnone, hnone', ?_⟩
  intro key hkey hkey'
  rcases h.locked id task ht with heq | heq
  · exact hnone heq
  · rcases h.locked j u hu with heq' | heq'
    · exact hnone' heq'
    · rw [heq, heq'] at hfree
      exact hfree ⟨key, hkey', hkey⟩

/-- A copying task holds the whole place. -/
theorem copying_exclusive (h : Overlap place initial s) (hu : s.tasks[j]? = some u)
    {copies : List SabStore.Copy} {rest : List (EntryKey × EntryKey)} {now : Nat}
    (hstatus : u.status = Status.copying copies rest now) : u.queue.keys = none := by
  have hvalid := h.valid j u hu
  rw [hstatus] at hvalid
  rcases hvalid with ⟨done, hstart, _⟩
  exact Option.not_isSome_iff_eq_none.mp (by rw [(SabStore.start_move hstart).1]; simp)

/-- Another task is still valid after a step of a task it does not conflict with. -/
theorem valid_other (h : Overlap place initial s) (ht : s.tasks[id]? = some task)
    (hunsettled : forall result, task.status ≠ Status.settled result)
    (hearlier : Earlier s id task) {files : Files} {creating : List Key}
    (hfiles : files.WellFormed) (hhier : Hierarchical files creating)
    (hold : forall key, key ∈ s.creating -> key ∈ creating ∨ key ∈ task.op.keys)
    (hframe : forall key, task.queue.keys ≠ none -> key ∉ task.op.keys ->
      files.get (EntryKey.ofSource key) = s.files.get (EntryKey.ofSource key))
    (hu : s.tasks[j]? = some u) (hne : j ≠ id) : Valid place files creating u u.status := by
  have hvalid := h.valid j u hu
  cases hstatus : u.status with
  | queued => exact trivial
  | storing target input removed now =>
      rw [hstatus] at hvalid
      have hfree := h.alone ht hunsettled hearlier hu hne (by rw [hstatus]; simp)
        (by rw [hstatus]; simp)
      rcases h.disjoint ht hu hfree with ⟨hkeys, _, hdisjoint⟩
      have hop := h.canonical j u hu
      rcases SabStore.start_publish h.wellFormed.indexed hop hvalid.2 with ⟨htarget, _, _⟩
      have hcreating : target ∈ creating := by
        rcases hold target hvalid.1 with hmem | hmem
        · exact hmem
        · exact absurd hmem (hdisjoint target htarget)
      refine ⟨hcreating, SabStore.start_stable hfiles.indexed hop hvalid.2 ?_ ?_ ?_⟩
      · exact fun key hkey => hframe key hkeys (hdisjoint key hkey)
      · exact fun file hfile => hhier file target (Or.inl hfile) (Or.inr hcreating)
      · exact fun file hfile => hhier target file (Or.inr hcreating) (Or.inl hfile)
  | copying copies rest now =>
      have hfree := h.alone ht hunsettled hearlier hu hne (by rw [hstatus]; simp)
        (by rw [hstatus]; simp)
      exact absurd (h.copying_exclusive hu hstatus) (h.disjoint ht hu hfree).2.1
  | ended key result =>
      rw [hstatus] at hvalid
      exact hvalid
  | settled result => exact trivial

theorem progress (h : Overlap place initial s) (ht : s.tasks[id]? = some task)
    (hearlier : Earlier s id task) {status : Status} (hstatus : status ≠ Status.queued)
    (hunsettled : forall result, task.status ≠ Status.settled result) :
    Admits s.locks ((s.tasks.set id { task with status := status }).map MutationTask.queue)
      (progressed (s.tasks.set id { task with status := status })) := by
  rw [queues_set ht]
  apply h.admits.progress (queue_get ht) hearlier
  · intro i
    constructor
    · intro hi
      rcases hi with ⟨t, hget, hne⟩
      rcases get_set hget with ⟨heq, _⟩ | ⟨_, hold⟩
      · exact Or.inr heq
      · exact Or.inl ⟨t, hold, hne⟩
    · intro hi
      by_cases heq : i = id
      · rw [heq]
        exact ⟨_, get_set_self ht _, hstatus⟩
      · rcases hi with ⟨t, hget, hne⟩ | heq'
        · exact ⟨t, (get_set_ne heq _).trans hget, hne⟩
        · exact absurd heq' heq
  · intro i hi
    rcases hi with ⟨t, result, hget, hsettled⟩
    rcases get_set hget with ⟨heq, _⟩ | ⟨_, hold⟩
    · exact Or.inr heq
    · exact Or.inl ⟨t, result, hold, hsettled⟩
  · intro i hi
    rcases hi with ⟨t, result, hget, hsettled⟩
    have hne : i ≠ id := by
      intro heq
      rw [heq, ht, Option.some.injEq] at hget
      rw [← hget] at hsettled
      exact hunsettled result hsettled
    exact ⟨t, result, (get_set_ne hne _).trans hget, hsettled⟩

/-- One task goes on to another status. -/
theorem advance (h : Overlap place initial s) (ht : s.tasks[id]? = some task)
    (hunsettled : forall result, task.status ≠ Status.settled result)
    (hearlier : Earlier s id task) {status : Status} {files : Files} {creating : List Key}
    {log : List Committed} (hstatus : status ≠ Status.queued)
    (hfiles : files.WellFormed) (hhier : Hierarchical files creating)
    (hnew : forall key, key ∈ creating ->
      (key ∈ s.creating ∧ task.status.creates ≠ some key) ∨ status.creates = some key)
    (hold : forall key, key ∈ s.creating -> key ∈ creating ∨ key ∈ task.op.keys)
    (hframe : forall key, task.queue.keys ≠ none -> key ∉ task.op.keys ->
      files.get (EntryKey.ofSource key) = s.files.get (EntryKey.ofSource key))
    (hvalid : Valid place files creating task status)
    (hlog : Logs place s id task status files log) :
    Overlap place initial
      { files := files
        creating := creating
        locks := s.locks
        tasks := s.tasks.set id { task with status := status }
        log := log } := by
  -- what a task of the new list was before
  have hbefore : forall {j : Nat} {u : MutationTask},
      (s.tasks.set id { task with status := status })[j]? = some u ->
        exists v, s.tasks[j]? = some v ∧ u.op = v.op ∧ u.queue = v.queue := by
    intro j u hget
    rcases get_set hget with ⟨rfl, rfl⟩ | ⟨_, hsame⟩
    · exact ⟨task, ht, rfl, rfl⟩
    · exact ⟨u, hsame, rfl, rfl⟩
  have hlogged : forall c, c ∈ s.log -> (status.Succeeded <-> task.status.Succeeded) ∨
      ¬ task.status.Succeeded ->
      exists t, (s.tasks.set id { task with status := status })[c.task]? = some t ∧
        t.status.Succeeded ∧ c.op = t.op ∧ c.keys = t.queue.keys := by
    intro c hc hcases
    rcases h.logged c hc with ⟨t, hget, hsucceeded, hop, hkeys⟩
    by_cases heq : c.task = id
    · rw [heq, ht, Option.some.injEq] at hget
      rw [← hget] at hsucceeded hop hkeys
      rcases hcases with hiff | hnot
      · refine ⟨{ task with status := status }, ?_, hiff.mpr hsucceeded, hop, hkeys⟩
        rw [heq]
        exact get_set_self ht _
      · exact absurd hsucceeded hnot
    · exact ⟨t, (get_set_ne heq _).trans hget, hsucceeded, hop, hkeys⟩
  constructor
  · intro j u hu
    rcases hbefore hu with ⟨v, hv, hop, _⟩
    show u.op.Canonical
    rw [hop]
    exact h.canonical j v hv
  · intro j u hu
    rcases hbefore hu with ⟨v, hv, hop, hqueue⟩
    rw [hop, hqueue]
    exact h.locked j v hv
  · intro j u key directory force recursive hu hop'
    rcases hbefore hu with ⟨v, hv, hop, hqueue⟩
    rw [hqueue]
    exact h.removal j v key directory force recursive hv (hop.symm.trans hop')
  · exact h.progress ht hearlier hstatus hunsettled
  · exact hfiles
  · exact hhier
  · intro key hkey
    rcases hnew key hkey with ⟨hmem, hother⟩ | hself
    · rcases h.creating key hmem with ⟨i, t, hget, hcreates⟩
      have hne : i ≠ id := by
        intro heq
        rw [heq, ht, Option.some.injEq] at hget
        rw [← hget] at hcreates
        exact hother hcreates
      exact ⟨i, t, (get_set_ne hne _).trans hget, hcreates⟩
    · exact ⟨id, _, get_set_self ht _, hself⟩
  · intro j u hu
    rcases get_set hu with ⟨_, rfl⟩ | ⟨hne, hsame⟩
    · exact hvalid
    · exact h.valid_other ht hunsettled hearlier hfiles hhier hold hframe hsame hne
  · cases hlog with
    | kept hlog heq _ =>
        rw [hlog, heq]
        exact h.replays
    | commits env tree hlog hrun _ _ _ =>
        rw [hlog]
        exact replay_concat h.replays _ hrun
  · intro c hc
    cases hlog with
    | kept hlog _ hiff =>
        rw [hlog] at hc
        exact hlogged c hc (Or.inl hiff)
    | commits env tree hlog _ hsucceeded hnot _ =>
        rw [hlog] at hc
        rcases List.mem_append.mp hc with hc | hc
        · exact hlogged c hc (Or.inr hnot)
        · rw [List.mem_singleton.mp hc]
          exact ⟨_, get_set_self ht _, hsucceeded, rfl, rfl⟩
  · intro j u hu hsucceeded
    rcases get_set hu with ⟨rfl, rfl⟩ | ⟨hne, hsame⟩
    · cases hlog with
      | kept hlog _ hiff =>
          rw [hlog]
          exact h.complete j task ht (hiff.mp hsucceeded)
      | commits env tree hlog _ _ _ _ =>
          rw [hlog]
          exact ⟨_, List.mem_append_right _ (List.mem_singleton.mpr rfl), rfl⟩
    · rcases h.complete j u hsame hsucceeded with ⟨c, hc, heq⟩
      cases hlog with
      | kept hlog _ _ =>
          rw [hlog]
          exact ⟨c, hc, heq⟩
      | commits env tree hlog _ _ _ _ =>
          rw [hlog]
          exact ⟨c, List.mem_append_left _ hc, heq⟩
  · cases hlog with
    | kept hlog _ _ =>
        rw [hlog]
        exact h.once
    | commits env tree hlog _ _ hnot _ =>
        rw [hlog, List.map_append, List.nodup_append]
        refine ⟨h.once, List.nodup_singleton _, ?_⟩
        intro a ha b hb hab
        rcases List.mem_map.mp ha with ⟨c, hc, hca⟩
        have hb' : b = id := List.mem_singleton.mp hb
        rcases h.logged c hc with ⟨t, hget, hsucceeded, _, _⟩
        rw [hca, hab, hb', ht, Option.some.injEq] at hget
        rw [← hget] at hsucceeded
        exact hnot hsucceeded
  · cases hlog with
    | kept hlog _ _ =>
        rw [hlog]
        exact h.ordered
    | commits env tree hlog _ _ hnot _ =>
        rw [hlog, List.pairwise_append]
        refine ⟨h.ordered, List.pairwise_singleton _ _, ?_⟩
        intro a ha b hb hconflict
        have hb' := List.mem_singleton.mp hb
        rw [hb'] at hconflict ⊢
        rcases h.logged a ha with ⟨t, hget, hsucceeded, _, hkeys⟩
        rw [hkeys] at hconflict
        have hne : a.task ≠ id := by
          intro heq
          rw [heq, ht, Option.some.injEq] at hget
          rw [← hget] at hsucceeded
          exact hnot hsucceeded
        rcases Nat.lt_or_gt_of_ne hne with hlt | hgt
        · exact hlt
        · -- a later conflicting task has started, so this one would have settled
          have hstarted : t.status ≠ Status.queued := by
            rcases hsucceeded with ⟨k, heq⟩ | heq
            · rw [heq]
              simp
            · rw [heq]
              simp
          rcases h.admits.ordered id a.task task.queue t.queue (queue_get ht) (queue_get hget)
            hgt hconflict.symm ⟨t, hget, hstarted⟩ with ⟨t', result, hget', hsettled⟩
          rw [ht, Option.some.injEq] at hget'
          rw [← hget'] at hsettled
          exact absurd hsettled (hunsettled result)
  · intro c hc hsubtree
    cases hlog with
    | kept hlog _ _ =>
        rw [hlog] at hc
        exact h.subtree c hc hsubtree
    | commits env tree hlog _ _ _ htree =>
        rw [hlog] at hc
        rcases List.mem_append.mp hc with hc | hc
        · exact h.subtree c hc hsubtree
        · rw [List.mem_singleton.mp hc] at hsubtree ⊢
          rcases hsubtree with hmoved | ⟨key, directory, force, recursive, hop⟩
          · exact htree hmoved
          · exact h.removal id task key directory force recursive ht hop

/-!
# The steps
-/

theorem earlier_running (h : Overlap place initial s) (ht : s.tasks[id]? = some task)
    (hstarted : task.status ≠ Status.queued) : Earlier s id task := by
  intro i u hu hlt hconflict
  exact h.admits.ordered i id u task.queue hu (queue_get ht) hlt hconflict ⟨task, ht, hstarted⟩

theorem earlier_start (h : Overlap place initial s) (ht : s.tasks[id]? = some task)
    (hprior : forall m, m ∈ task.queue.prior -> exists other result,
      s.tasks[m]? = some other ∧ other.status = Status.settled result) : Earlier s id task := by
  intro i u hu hlt hconflict
  exact h.admits.settled_before hu (queue_get ht) hlt hconflict hprior

theorem plain_keys (h : Overlap place initial s) (ht : s.tasks[id]? = some task) {key : Key}
    (hkey : key ∈ task.op.keys) : Plain key :=
  SabStore.plain_of_canonical (h.canonical id task ht) hkey

theorem plain_creating (h : Overlap place initial s) (key : Key) (hkey : key ∈ s.creating) :
    Plain key := by
  rcases h.creating key hkey with ⟨id, task, ht, hcreates⟩
  have hvalid := h.valid id task ht
  cases hstatus : task.status with
  | queued =>
      rw [hstatus] at hcreates
      cases hcreates
  | storing target input removed now =>
      rw [hstatus] at hcreates hvalid
      rw [← Option.some.inj hcreates]
      exact h.plain_keys ht (SabStore.start_publish h.wellFormed.indexed
        (h.canonical id task ht) hvalid.2).1
  | copying copies rest now =>
      rw [hstatus] at hcreates
      cases hcreates
  | ended creating result =>
      rw [hstatus] at hcreates hvalid
      exact h.plain_keys ht (hvalid key hcreates)
  | settled result =>
      rw [hstatus] at hcreates
      cases hcreates

theorem initial_overlap {files : Files} (h : MapStore.Kept files) :
    Overlap place files (SabPlace.initial files) := by
  constructor
  · intro id task ht
    cases ht
  · intro id task ht
    cases ht
  · intro id task key directory force recursive ht
    cases ht
  · apply Admits.new
    intro i hi
    rcases hi with ⟨t, result, ht, _⟩
    cases ht
  · exact h.wellFormed
  · exact h.hierarchical
  · intro key hkey
    cases hkey
  · intro id task ht
    cases ht
  · rfl
  · intro c hc
    cases hc
  · intro id task ht
    cases ht
  · exact List.nodup_nil
  · exact List.Pairwise.nil
  · intro c hc
    cases hc

theorem request (h : Overlap place initial s) {op : Mutation} (hop : op.Canonical) :
    Overlap place initial (s.request op) := by
  have hold : forall {id : Nat} {task : MutationTask}, s.tasks[id]? = some task ->
      (s.request op).tasks[id]? = some task := by
    intro id task ht
    exact (List.getElem?_append_left (List.getElem?_eq_some_iff.mp ht).1).trans ht
  have hcases : forall {id : Nat} {task : MutationTask},
      (s.request op).tasks[id]? = some task -> s.tasks[id]? = some task ∨
        (id = s.tasks.length ∧ task =
          { op := op
            queue := { keys := SabStore.locksOf s.files op
                       prior := s.locks.prior (SabStore.locksOf s.files op) }
            status := Status.queued }) := by
    intro id task ht
    rcases Nat.lt_trichotomy id s.tasks.length with hlt | heq | hgt
    · exact Or.inl ((List.getElem?_append_left hlt).symm.trans ht)
    · rw [heq] at ht
      exact Or.inr ⟨heq, (Option.some.inj (List.getElem?_concat_length.symm.trans ht)).symm⟩
    · have hnone : (s.request op).tasks[id]? = none :=
        List.getElem?_eq_none (by
          show (s.tasks ++ [_]).length ≤ id
          rw [List.length_append]
          exact hgt)
      rw [hnone] at ht
      cases ht
  have hprogress : progressed (s.request op).tasks = progressed s.tasks := by
    have hstarted : forall i, (progressed (s.request op).tasks).started i <->
        (progressed s.tasks).started i := by
      intro i
      constructor
      · intro hi
        rcases hi with ⟨t, ht, hne⟩
        rcases hcases ht with ht | ⟨_, rfl⟩
        · exact ⟨t, ht, hne⟩
        · exact absurd rfl hne
      · intro hi
        rcases hi with ⟨t, ht, hne⟩
        exact ⟨t, hold ht, hne⟩
    have hsettled : forall i, (progressed (s.request op).tasks).settled i <->
        (progressed s.tasks).settled i := by
      intro i
      constructor
      · intro hi
        rcases hi with ⟨t, result, ht, hstatus⟩
        rcases hcases ht with ht | ⟨_, rfl⟩
        · exact ⟨t, result, ht, hstatus⟩
        · cases hstatus
      · intro hi
        rcases hi with ⟨t, result, ht, hstatus⟩
        exact ⟨t, result, hold ht, hstatus⟩
    show Progressed.mk _ _ = Progressed.mk _ _
    rw [Progressed.mk.injEq]
    exact ⟨funext (fun i => propext (hstarted i)), funext (fun i => propext (hsettled i))⟩
  constructor
  · intro id task ht
    rcases hcases ht with ht | ⟨_, rfl⟩
    · exact h.canonical id task ht
    · exact hop
  · intro id task ht
    rcases hcases ht with ht | ⟨_, rfl⟩
    · exact h.locked id task ht
    · exact SabStore.locksOf_cases s.files op
  · intro id task key directory force recursive ht heq
    rcases hcases ht with ht | ⟨_, rfl⟩
    · exact h.removal id task key directory force recursive ht heq
    · have hop' : op = Mutation.rm key directory force recursive := heq
      show SabStore.locksOf s.files op = none
      rw [hop']
      rfl
  · rw [hprogress]
    have hkeys : SabStore.locksOf s.files op ≠ some [] := by
      rcases SabStore.locksOf_cases s.files op with heq | heq
      · rw [heq]
        simp
      · rw [heq]
        intro hnil
        exact SabStore.keys_ne_nil op (Option.some.inj hnil)
    have haccept := h.admits.accept (SabStore.locksOf s.files op) hkeys (by
      intro hstarted
      rcases hstarted with ⟨t, ht, _⟩
      rw [List.length_map, List.getElem?_eq_none (Nat.le_refl _)] at ht
      cases ht)
    rw [List.length_map] at haccept
    show Admits _ ((s.tasks ++ [_]).map MutationTask.queue) _
    rw [List.map_append]
    exact haccept
  · exact h.wellFormed
  · exact h.hierarchical
  · intro key hkey
    rcases h.creating key hkey with ⟨id, task, ht, hcreates⟩
    exact ⟨id, task, hold ht, hcreates⟩
  · intro id task ht
    rcases hcases ht with ht | ⟨_, rfl⟩
    · exact h.valid id task ht
    · exact trivial
  · exact h.replays
  · intro c hc
    rcases h.logged c hc with ⟨t, ht, hrest⟩
    exact ⟨t, hold ht, hrest⟩
  · intro id task ht hsucceeded
    rcases hcases ht with ht | ⟨_, rfl⟩
    · exact h.complete id task ht hsucceeded
    · rcases hsucceeded with ⟨k, heq⟩ | heq
      · cases heq
      · cases heq
  · exact h.once
  · exact h.ordered
  · exact h.subtree

theorem release (h : Overlap place initial s) (ht : s.tasks[id]? = some task)
    {result : Except Refusal Unit} (hstatus : task.status = Status.settled result) :
    Overlap place initial { s with locks := s.locks.release id task.queue.keys } :=
  { h with
    admits := h.admits.release (queue_get ht) ⟨task, result, ht, hstatus⟩ }

/-- A step of a running task that only changes its status. -/
theorem quiet (h : Overlap place initial s) (ht : s.tasks[id]? = some task)
    (hstarted : task.status ≠ Status.queued)
    (hunsettled : forall result, task.status ≠ Status.settled result) {status : Status}
    (hstatus : status ≠ Status.queued) (hcreates : status.creates = task.status.creates)
    (hvalid : Valid place s.files s.creating task status)
    (hsucceeded : status.Succeeded <-> task.status.Succeeded) :
    Overlap place initial (s.setTask id task status) := by
  apply h.advance ht hunsettled (h.earlier_running ht hstarted) hstatus h.wellFormed
    h.hierarchical
  · intro key hkey
    rw [hcreates]
    by_cases heq : task.status.creates = some key
    · exact Or.inr heq
    · exact Or.inl ⟨hkey, heq⟩
  · exact fun key hkey => Or.inl hkey
  · exact fun key _ _ => rfl
  · exact hvalid
  · exact Logs.kept rfl rfl hsucceeded

theorem not_succeeded_storing {target : Key} {input : PlaceFile} {removed : List Key}
    {now : Nat} : ¬ (Status.storing target input removed now).Succeeded := by
  intro h
  rcases h with ⟨k, heq⟩ | heq
  · cases heq
  · cases heq

theorem not_succeeded_copying {copies : List SabStore.Copy}
    {rest : List (EntryKey × EntryKey)} {now : Nat} :
    ¬ (Status.copying copies rest now).Succeeded := by
  intro h
  rcases h with ⟨k, heq⟩ | heq
  · cases heq
  · cases heq

theorem not_succeeded_queued : ¬ Status.queued.Succeeded := by
  intro h
  rcases h with ⟨k, heq⟩ | heq
  · cases heq
  · cases heq

theorem succeeded_ended_iff {creating : Option Key} {result : Except Refusal Unit} :
    (Status.ended creating result).Succeeded <-> result = Except.ok () := by
  constructor
  · intro h
    rcases h with ⟨k, heq⟩ | heq
    · injection heq
    · cases heq
  · intro h
    rw [h]
    exact Or.inl ⟨creating, rfl⟩

theorem succeeded_settled_iff {result : Except Refusal Unit} :
    (Status.settled result).Succeeded <-> result = Except.ok () := by
  constructor
  · intro h
    rcases h with ⟨k, heq⟩ | heq
    · cases heq
    · injection heq
  · intro h
    rw [h]
    exact Or.inr rfl

theorem fail (h : Overlap place initial s) (ht : s.tasks[id]? = some task) {target : Key}
    {input : PlaceFile} {removed : List Key} {now : Nat}
    (hstatus : task.status = Status.storing target input removed now) (refusal : Refusal) :
    Overlap place initial
      (s.setTask id task (Status.ended (some target) (Except.error refusal))) := by
  have hvalid := h.valid id task ht
  rw [hstatus] at hvalid
  apply h.quiet ht
  · rw [hstatus]
    simp
  · rw [hstatus]
    simp
  · simp
  · rw [hstatus]
    rfl
  · intro key hkey
    rw [← Option.some.inj hkey]
    exact (SabStore.start_publish h.wellFormed.indexed (h.canonical id task ht) hvalid.2).1
  · rw [hstatus, succeeded_ended_iff]
    constructor
    · intro heq
      cases heq
    · intro heq
      exact absurd heq not_succeeded_storing

theorem failTree (h : Overlap place initial s) (ht : s.tasks[id]? = some task)
    {copies : List SabStore.Copy} {rest : List (EntryKey × EntryKey)} {now : Nat}
    (hstatus : task.status = Status.copying copies rest now) (refusal : Refusal) :
    Overlap place initial (s.setTask id task (Status.ended none (Except.error refusal))) := by
  apply h.quiet ht
  · rw [hstatus]
    simp
  · rw [hstatus]
    simp
  · simp
  · rw [hstatus]
    rfl
  · intro key hkey
    cases hkey
  · rw [hstatus, succeeded_ended_iff]
    constructor
    · intro heq
      cases heq
    · intro heq
      exact absurd heq not_succeeded_copying

theorem copy (h : Overlap place initial s) (ht : s.tasks[id]? = some task)
    {copies : List SabStore.Copy} {move : EntryKey × EntryKey}
    {rest : List (EntryKey × EntryKey)} {now : Nat} {file : PlaceFile}
    (hstatus : task.status = Status.copying copies (move :: rest) now)
    (hfile : s.files.get move.1 = some file) :
    Overlap place initial
      (s.setTask id task
        (Status.copying (copies ++ [(move.1, move.2, SabStore.copyOf file)]) rest now)) := by
  have hvalid := h.valid id task ht
  rw [hstatus] at hvalid
  rcases hvalid with ⟨done, hstart, hcopies⟩
  apply h.quiet ht
  · rw [hstatus]
    simp
  · rw [hstatus]
    simp
  · simp
  · rw [hstatus]
    rfl
  · refine ⟨done ++ [move], ?_, SabStore.copiesOf_append hcopies ?_⟩
    · rw [List.append_assoc, List.singleton_append]
      exact hstart
    · unfold SabStore.copiesOf
      rw [hfile]
      rfl
  · rw [hstatus]
    constructor
    · intro heq
      exact absurd heq not_succeeded_copying
    · intro heq
      exact absurd heq not_succeeded_copying

theorem settle (h : Overlap place initial s) (ht : s.tasks[id]? = some task)
    {creating : Option Key} {result : Except Refusal Unit}
    (hstatus : task.status = Status.ended creating result) :
    Overlap place initial (s.settle id task creating result) := by
  have hvalid := h.valid id task ht
  rw [hstatus] at hvalid
  have hmem : forall {key : Key},
      key ∈ s.creating.filter (fun k => decide (some k ≠ creating)) <->
        (key ∈ s.creating ∧ some key ≠ creating) := by
    intro key
    rw [List.mem_filter, decide_eq_true_iff]
  apply h.advance ht
  · rw [hstatus]
    simp
  · exact h.earlier_running ht (by rw [hstatus]; simp)
  · simp
  · exact h.wellFormed
  · refine h.hierarchical.mono (fun key hkey => ?_)
    rcases hkey with hkey | hkey
    · exact Or.inl hkey
    · exact Or.inr (hmem.mp hkey).1
  · intro key hkey
    refine Or.inl ⟨(hmem.mp hkey).1, ?_⟩
    rw [hstatus]
    exact fun heq => (hmem.mp hkey).2 heq.symm
  · intro key hkey
    by_cases heq : some key = creating
    · exact Or.inr (hvalid key heq.symm)
    · exact Or.inl (hmem.mpr ⟨hkey, heq⟩)
  · exact fun key _ _ => rfl
  · exact trivial
  · refine Logs.kept rfl rfl ?_
    rw [hstatus, succeeded_ended_iff, succeeded_settled_iff]

/-- Running a mutation on its own does what a valid plan commits. -/
theorem run_of {env : Env} {op : Mutation} (locked : Bool) {plan : SabStore.Plan}
    {changes : List Change}
    (hstart : SabStore.start place s.files [] locked env.now op = Except.ok plan)
    (hchanges : plan.changes place s.files env = Except.ok changes) :
    SabStore.run place s.files env op = (SabStore.flush s.files changes, Except.ok ()) := by
  have hall : SabStore.changes place s.files env op = Except.ok changes :=
    Place.bind_ok.mpr ⟨plan, SabStore.start_locks hstart, hchanges⟩
  unfold SabStore.run
  rw [hall]

theorem commit (h : Overlap place initial s) (ht : s.tasks[id]? = some task) {target : Key}
    {input : PlaceFile} {removed : List Key} {env : Env} {changes : List Change}
    (hstatus : task.status = Status.storing target input removed env.now)
    (hstore : SabStore.storeShared place target input env = Except.ok changes) :
    Overlap place initial
      (s.committed id task env false (SabStore.unstaged place removed ++ changes)
        (Status.ended (some target) (Except.ok ()))) := by
  have hvalid := h.valid id task ht
  rw [hstatus] at hvalid
  rcases SabStore.start_publish h.wellFormed.indexed (h.canonical id task ht) hvalid.2 with
    ⟨htarget, hremoved, _⟩
  have hsource : forall change, change ∈ SabStore.unstaged place removed ++ changes ->
      change.1.source ∈ task.op.keys := by
    intro change hchange
    rcases SabStore.publication_source hstore hchange with heq | hmem
    · rw [heq]
      exact htarget
    · exact hremoved _ hmem
  apply h.advance ht
  · rw [hstatus]
    simp
  · exact h.earlier_running ht (by rw [hstatus]; simp)
  · simp
  · exact SabStore.WellFormed.flush h.wellFormed
      (fun change hchange _ => (h.plain_keys ht (hsource change hchange)).1)
  · refine h.hierarchical.mono (fun key hkey => ?_)
    rcases hkey with hkey | hkey
    · rw [SabStore.hasSource_flush, SabStore.lastOf_publication_source hstore] at hkey
      rcases hkey with ⟨file, hfile⟩ | ⟨_, hold⟩
      · by_cases hk : key = target
        · rw [hk]
          exact Or.inr hvalid.1
        · rw [if_neg hk] at hfile
          split_ifs at hfile
          cases Option.some.inj hfile
      · exact Or.inl hold
    · exact Or.inr hkey
  · intro key hkey
    rw [hstatus]
    by_cases heq : target = key
    · exact Or.inr (congrArg some heq)
    · refine Or.inl ⟨hkey, ?_⟩
      intro hsome
      exact heq (Option.some.inj hsome)
  · exact fun key hkey => Or.inl hkey
  · intro key _ hkey
    refine SabStore.get_flush_frame (fun change hchange heq => ?_)
    rw [← heq] at hkey
    exact hkey (hsource change hchange)
  · intro key hkey
    rw [← Option.some.inj hkey]
    exact htarget
  · refine Logs.commits env false rfl (run_of _ hvalid.2 ?_) ?_ ?_ (by simp)
    · unfold SabStore.Plan.changes
      exact Place.bind_ok.mpr ⟨input, rfl, Place.bind_ok.mpr ⟨changes, hstore, rfl⟩⟩
    · exact succeeded_ended_iff.mpr rfl
    · rw [hstatus]
      exact not_succeeded_storing

/-- While a subtree is copied nothing else is in flight. -/
theorem copying_alone (h : Overlap place initial s) (ht : s.tasks[id]? = some task)
    {copies : List SabStore.Copy} {rest : List (EntryKey × EntryKey)} {now : Nat}
    (hstatus : task.status = Status.copying copies rest now) : s.creating = [] := by
  rw [List.eq_nil_iff_forall_not_mem]
  intro key hkey
  rcases h.creating key hkey with ⟨j, u, hu, hcreates⟩
  have hne : j ≠ id := by
    intro heq
    rw [heq, ht, Option.some.injEq] at hu
    rw [← hu, hstatus] at hcreates
    cases hcreates
  have hfree := h.alone ht (by rw [hstatus]; simp)
    (h.earlier_running ht (by rw [hstatus]; simp)) hu hne
    (by
      intro heq
      rw [heq] at hcreates
      cases hcreates)
    (by
      intro result heq
      rw [heq] at hcreates
      cases hcreates)
  exact (h.disjoint ht hu hfree).1 (h.copying_exclusive ht hstatus)

theorem mem_treeChanges {copies : List SabStore.Copy} {change : Change} :
    change ∈ SabStore.treeChanges copies <-> exists copy, copy ∈ copies ∧
      (change = (copy.1, none) ∨ change = (copy.2.1, some copy.2.2)) := by
  unfold SabStore.treeChanges
  rw [List.mem_flatMap]
  refine exists_congr (fun copy => and_congr_right' ?_)
  rw [List.mem_cons, List.mem_singleton]

/-- The source keys after a subtree was copied and its old keys removed. -/
theorem hasSource_tree {files : Files} {copies : List SabStore.Copy}
    {moves : List (EntryKey × EntryKey)}
    (hmoves : copies.map (fun copy => (copy.1, copy.2.1)) = moves) (key : Key)
    (h : (SabStore.flush files (SabStore.treeChanges copies)).hasSource key = true) :
    (exists move, move ∈ moves ∧ move.2 = EntryKey.ofSource key) ∨
      (files.hasSource key = true ∧ EntryKey.ofSource key ∉ moves.map Prod.fst) := by
  rw [SabStore.hasSource_flush] at h
  rcases h with ⟨file, hfile⟩ | ⟨hnone, hold⟩
  · rcases mem_treeChanges.mp (lastOf_mem hfile) with ⟨copy, hcopy, heq | heq⟩
    · cases (Prod.mk.inj heq).2
    · refine Or.inl ⟨(copy.1, copy.2.1), ?_, (Prod.mk.inj heq).1.symm⟩
      rw [← hmoves]
      exact List.mem_map_of_mem hcopy
  · refine Or.inr ⟨hold, ?_⟩
    intro hmem
    rw [lastOf_eq_none] at hnone
    rw [← hmoves, List.map_map] at hmem
    rcases List.mem_map.mp hmem with ⟨copy, hcopy, heq⟩
    apply hnone
    have hchange : (copy.1, none) ∈ SabStore.treeChanges copies :=
      mem_treeChanges.mpr ⟨copy, hcopy, Or.inl rfl⟩
    exact List.mem_map.mpr ⟨_, hchange, heq⟩

theorem commitTree (h : Overlap place initial s) (ht : s.tasks[id]? = some task)
    {copies : List SabStore.Copy} {now : Nat}
    (hstatus : task.status = Status.copying copies [] now) :
    Overlap place initial
      (s.committed id task (plainEnv now) true (SabStore.treeChanges copies)
        (Status.ended none (Except.ok ()))) := by
  have hvalid := h.valid id task ht
  rw [hstatus] at hvalid
  rcases hvalid with ⟨moves, hstart, hcopies⟩
  rw [List.append_nil] at hstart
  have hempty := h.copying_alone ht hstatus
  have hexclusive := h.copying_exclusive ht hstatus
  have hmoves := SabStore.copiesOf_moves hcopies
  rcases SabStore.start_move hstart with ⟨_, source, target, directory, hop, hsubtree⟩
  have hsource : Plain source := h.plain_keys ht (by rw [hop]; simp [Mutation.keys])
  have htarget : Plain target := h.plain_keys ht (by rw [hop]; simp [Mutation.keys])
  have hhier : Hierarchical s.files [] := by
    rw [← hempty]
    exact h.hierarchical
  -- the re-keyed subtree is published below the target only
  have htree : (forall change, change ∈ SabStore.treeChanges copies -> change.2 ≠ none ->
        exists rest, change.1.source = slash :: rest) ∧
      Hierarchical (SabStore.flush s.files (SabStore.treeChanges copies)) [] := by
    rcases Place.subtreeMoves_ok h.wellFormed hsource htarget hsubtree with
      ⟨_, hnil⟩ | hmovable
    · have hcopiesNil : copies = [] := by
        rw [hnil] at hmoves
        exact List.map_eq_nil_iff.mp hmoves
      rw [hcopiesNil]
      exact ⟨by simp [SabStore.treeChanges], hhier⟩
    · constructor
      · intro change hchange hsome
        rcases mem_treeChanges.mp hchange with ⟨copy, hcopy, rfl | rfl⟩
        · exact absurd rfl hsome
        · have hmove : (copy.1, copy.2.1) ∈ moves := by
            rw [← hmoves]
            exact List.mem_map_of_mem hcopy
          rcases (hmovable.mem _).mp hmove with ⟨key, _, _, hmem⟩
          rcases htarget.1 with ⟨rest, hrest⟩
          have hnew : copy.2.1 = ⟨Place.rekey source target key, copy.1.flavor⟩ :=
            (Place.mem_movesOf.mp hmem).2.1
          show exists rest, copy.2.1.source = slash :: rest
          rw [hnew]
          exact ⟨rest ++ key.drop source.length, by rw [Place.rekey, hrest]; rfl⟩
      · exact hhier.move hmovable (hmovable.keys (hasSource_tree hmoves))
  apply h.advance ht
  · rw [hstatus]
    simp
  · exact h.earlier_running ht (by rw [hstatus]; simp)
  · simp
  · exact SabStore.WellFormed.flush h.wellFormed htree.1
  · show Hierarchical _ s.creating
    rw [hempty]
    exact htree.2
  · intro key hkey
    have hmem : key ∈ s.creating := hkey
    rw [hempty] at hmem
    cases hmem
  · exact fun key hkey => Or.inl hkey
  · exact fun key hkeys => absurd hexclusive hkeys
  · intro key hkey
    cases hkey
  · refine Logs.commits (plainEnv now) true rfl ?_ ?_ ?_ (fun _ => hexclusive)
    · refine run_of task.queue.keys.isSome hstart ?_
      exact Place.bind_ok.mpr ⟨copies, hcopies, rfl⟩
    · exact succeeded_ended_iff.mpr rfl
    · rw [hstatus]
      exact not_succeeded_copying

theorem start (h : Overlap place initial s) (ht : s.tasks[id]? = some task) (now : Nat)
    (hqueued : task.status = Status.queued)
    (hprior : forall m, m ∈ task.queue.prior -> exists other result,
      s.tasks[m]? = some other ∧ other.status = Status.settled result) :
    Overlap place initial (s.start place id task now) := by
  have hearlier := h.earlier_start ht hprior
  have hunsettled : forall result, task.status ≠ Status.settled result := by
    rw [hqueued]
    simp
  have hnone : forall key : Key, task.status.creates ≠ some key := by
    rw [hqueued]
    simp [Status.creates]
  have hnot : ¬ task.status.Succeeded := by
    rw [hqueued]
    exact not_succeeded_queued
  have hop := h.canonical id task ht
  -- a publication begins: its target is in flight
  have hcreate : forall {target : Key} {input : Except Refusal PlaceFile} {removed : List Key},
      SabStore.start place s.files s.creating task.queue.keys.isSome now task.op =
        Except.ok (SabStore.Plan.publish target input removed) ->
      forall {status : Status}, status ≠ Status.queued -> status.creates = some target ->
        ¬ status.Succeeded ->
        Valid place s.files (target :: s.creating) task status ->
        Overlap place initial
          { (s.setTask id task status) with creating := target :: s.creating } := by
    intro target input removed hstart status hstatus hcreates hfailed hvalid
    rcases SabStore.start_publish h.wellFormed.indexed hop hstart with ⟨_, _, hclear⟩
    apply h.advance ht hunsettled hearlier hstatus h.wellFormed
    · exact h.hierarchical.create h.wellFormed.rooted h.plain_creating hclear
    · intro key hkey
      rcases List.mem_cons.mp hkey with rfl | hkey
      · exact Or.inr hcreates
      · exact Or.inl ⟨hkey, hnone key⟩
    · exact fun key hkey => Or.inl (List.mem_cons_of_mem _ hkey)
    · exact fun key _ _ => rfl
    · exact hvalid
    · exact Logs.kept rfl rfl ⟨fun heq => absurd heq hfailed, fun heq => absurd heq hnot⟩
  -- a task that starts without anything in flight keeps everything else
  have hkeep : forall {status : Status}, status ≠ Status.queued -> ¬ status.Succeeded ->
      Valid place s.files s.creating task status ->
      Overlap place initial (s.setTask id task status) := by
    intro status hstatus hfailed hvalid
    apply h.advance ht hunsettled hearlier hstatus h.wellFormed h.hierarchical
    · exact fun key hkey => Or.inl ⟨hkey, hnone key⟩
    · exact fun key hkey => Or.inl hkey
    · exact fun key _ _ => rfl
    · exact hvalid
    · exact Logs.kept rfl rfl ⟨fun heq => absurd heq hfailed, fun heq => absurd heq hnot⟩
  unfold SabPlace.start
  cases hstart : SabStore.start place s.files s.creating task.queue.keys.isSome now task.op with
  | error refusal =>
      refine hkeep (by simp) ?_ trivial
      rw [succeeded_settled_iff]
      simp
  | ok plan =>
      have hweak := SabStore.start_weaken h.wellFormed.indexed hop hstart
      cases plan with
      | publish target input removed =>
          have htarget := (SabStore.start_publish h.wellFormed.indexed hop hstart).1
          cases input with
          | error refusal =>
              refine hcreate hstart (by simp) rfl ?_ ?_
              · rw [succeeded_ended_iff]
                simp
              · intro key hkey
                rw [← Option.some.inj hkey]
                exact htarget
          | ok input =>
              exact hcreate hstart (by simp) rfl not_succeeded_storing
                ⟨List.mem_cons_self, hweak⟩
      | move moves =>
          exact hkeep (by simp) not_succeeded_copying ⟨[], hweak, rfl⟩
      | now changes =>
          rcases SabStore.start_now hstart with ⟨keys, rfl, hkeys⟩
          have hgone : forall change, change ∈ SabStore.unstaged place keys ->
              change.2 = none := fun change hchange => (SabStore.mem_unstaged.mp hchange).1
          apply h.advance ht hunsettled hearlier (by simp)
          · exact SabStore.WellFormed.flush h.wellFormed
              (fun change hchange hsome => absurd (hgone change hchange) hsome)
          · refine h.hierarchical.mono (fun key hkey => ?_)
            rcases hkey with hkey | hkey
            · rw [SabStore.hasSource_flush] at hkey
              rcases hkey with ⟨file, hfile⟩ | ⟨_, hold⟩
              · cases hgone _ (lastOf_mem hfile)
              · exact Or.inl hold
            · exact Or.inr hkey
          · exact fun key hkey => Or.inl ⟨hkey, hnone key⟩
          · exact fun key hkey => Or.inl hkey
          · intro key hlocked hkey
            refine SabStore.get_flush_frame (fun change hchange heq => ?_)
            have hmem := SabStore.unstaged_source hchange
            rw [heq] at hmem
            rcases hkeys with hkeys | ⟨k, directory, force, recursive, hremoval⟩
            · exact hkey (hkeys key hmem)
            · exact hlocked (h.removal id task k directory force recursive ht hremoval)
          · exact trivial
          · refine Logs.commits (plainEnv now) false rfl
              (run_of task.queue.keys.isSome hweak rfl) ?_ hnot (by simp)
            exact succeeded_settled_iff.mpr rfl

theorem step (h : Overlap place initial s) {s' : SabPlace} (hstep : Step place s s') :
    Overlap place initial s' := by
  cases hstep with
  | request op hop => exact h.request hop
  | start id task now ht hqueued hprior => exact h.start ht now hqueued hprior
  | copy id task copies move rest now file ht hstatus hfile => exact h.copy ht hstatus hfile
  | commit id task target input removed env changes ht hstatus hstore =>
      exact h.commit ht hstatus hstore
  | commitTree id task copies now ht hstatus => exact h.commitTree ht hstatus
  | fail id task target input removed now refusal ht hstatus => exact h.fail ht hstatus refusal
  | failTree id task copies rest now refusal ht hstatus => exact h.failTree ht hstatus refusal
  | settle id task creating result ht hstatus => exact h.settle ht hstatus
  | release id task result ht hstatus => exact h.release ht hstatus

end Overlap

theorem Reachable.overlap {place : Place} {files : Files} {s : SabPlace}
    (h : Reachable place files s) (hfiles : MapStore.Kept files) : Overlap place files s := by
  induction h with
  | initial => exact Overlap.initial_overlap hfiles
  | step _ hstep ih => exact ih.step hstep

end SabPlace

end SharedMemoryFs
