import SharedMemoryFs.Watch.Published

/-!
# The turn of an epoch

Epochs and rechecks run one after another, and only once the places are published: when
the turn of one comes, nothing else is in flight, and while an epoch runs only its own
jobs are.
-/

namespace SharedMemoryFs.Lifecycle

open Foundation

variable {config : Config} {strict : Bool}

/-!
# What is tracked
-/

/-- A key below the root of its place. -/
def BelowRoot (key : Key) : Prop := exists rest, key = slash :: rest

theorem OfNames.below {key : Key} (h : OfNames key) (hne : key ≠ []) : BelowRoot key := by
  rcases h with ⟨names, _, heq⟩
  cases names with
  | nil => exact absurd heq hne
  | cons name rest => exact ⟨name ++ PosixPath.text rest, heq⟩

/-- The directory index of what is tracked is complete, and timers are armed for sources
only. -/
structure Kernel.Tidy (k : Kernel) : Prop where
  sources : forall name source, k.sources name = some source -> source.Indexed ∧ source.Rooted
  rechecks : forall name key, k.rechecks.has (name, key) = true -> BelowRoot key

theorem Kernel.Tidy.of_same {k k' : Kernel} (h : k.Tidy) (hsources : k'.sources = k.sources)
    (hrechecks : k'.rechecks = k.rechecks) : k'.Tidy := by
  constructor
  · rw [hsources]
    exact h.sources
  · rw [hrechecks]
    exact h.rechecks

theorem Kernel.Tidy.update {k : Kernel} (h : k.Tidy) (name : PlaceName)
    {source : Option (PlaceFiles FileInput)}
    (hsource : forall files, source = some files -> files.Indexed ∧ files.Rooted) :
    { k with sources := Function.update k.sources name source }.Tidy := by
  constructor
  · intro name' files hget
    dsimp only at hget
    by_cases hname : name' = name
    · rw [hname, Function.update_self] at hget
      exact hsource files hget
    · rw [Function.update_of_ne hname] at hget
      exact h.sources name' files hget
  · exact h.rechecks

theorem tidy_track {k : Kernel} (h : k.Tidy) (hosted : HostedPlace) {key : Key}
    (hkey : BelowRoot key) (file : FileInput) : (trackSource hosted key file k).Tidy := by
  apply h.update
  intro files heq
  rcases Option.map_eq_some_iff.mp heq with ⟨source, hsource, hset⟩
  rw [← hset]
  rcases h.sources hosted.name source hsource with ⟨hindexed, hrooted⟩
  exact ⟨PlaceFiles.set_indexed hindexed _ file hkey, PlaceFiles.set_rooted hrooted _ file hkey⟩

theorem tidy_untrack {k : Kernel} (h : k.Tidy) (hosted : HostedPlace) (key : Key) :
    (k.untrack hosted key).Tidy := by
  apply h.update
  intro files heq
  rcases Option.map_eq_some_iff.mp heq with ⟨source, hsource, hdelete⟩
  rw [← hdelete]
  rcases h.sources hosted.name source hsource with ⟨hindexed, hrooted⟩
  exact ⟨PlaceFiles.delete_indexed hindexed hrooted _, PlaceFiles.delete_rooted hrooted _⟩

theorem tidy_schedule {k : Kernel} (h : k.Tidy) (hosted : HostedPlace) {key : Key}
    (hkey : BelowRoot key) : (k.scheduleRecheck hosted key).Tidy := by
  unfold Kernel.scheduleRecheck
  split_ifs
  · exact h
  · constructor
    · exact h.sources
    · intro name key' hhas
      by_cases heq : (name, key') = (hosted.name, key)
      · rw [(Prod.mk.inj heq).2]
        exact hkey
      · apply h.rechecks name key'
        have hset : (OrderedMap.get _ _).isSome = true := hhas
        rw [OrderedMap.get_set_ne _ _ heq] at hset
        exact hset

theorem tidy_cancel {k : Kernel} (h : k.Tidy) (hosted : HostedPlace) (key : Key) :
    (k.cancelRecheck hosted key).Tidy := by
  constructor
  · exact h.sources
  · intro name key' hhas
    apply h.rechecks name key'
    have hget : (OrderedMap.get _ _).isSome = true := hhas
    unfold Kernel.cancelRecheck at hget
    dsimp only at hget
    rw [OrderedMap.get_delete] at hget
    split_ifs at hget
    · cases hget
    · exact hget

/-!
# A kernel at work
-/

/-- Nothing but {lit}`initialize` and {lit}`close` changes the state or drops the index. -/
structure Kernel.Works (k k' : Kernel) : Prop where
  state : k'.state = k.state
  cache : k'.cache.isSome = k.cache.isSome
  watched : forall name, (k'.sources name).isSome = (k.sources name).isSome
  tidy : k.Tidy -> k'.Tidy

theorem Kernel.Works.refl (k : Kernel) : k.Works k := ⟨rfl, rfl, fun _ => rfl, fun h => h⟩

theorem Kernel.Works.trans {k k' k'' : Kernel} (h : k.Works k') (h' : k'.Works k'') : k.Works k'' :=
  ⟨h'.state.trans h.state, h'.cache.trans h.cache,
    fun name => (h'.watched name).trans (h.watched name), fun hk => h'.tidy (h.tidy hk)⟩

theorem Kernel.Works.of_same {k k' : Kernel} (hstate : k'.state = k.state)
    (hcache : k'.cache.isSome = k.cache.isSome) (hsources : k'.sources = k.sources)
    (hrechecks : k'.rechecks = k.rechecks) : k.Works k' :=
  ⟨hstate, hcache, fun name => by rw [hsources], fun hk => hk.of_same hsources hrechecks⟩

/-- The sources of a place that is watched change. -/
theorem Kernel.Works.update {k : Kernel} (name : PlaceName)
    (f : PlaceFiles FileInput -> PlaceFiles FileInput)
    (htidy : k.Tidy -> { k with
      sources := Function.update k.sources name ((k.sources name).map f) }.Tidy) :
    k.Works { k with sources := Function.update k.sources name ((k.sources name).map f) } := by
  refine ⟨rfl, rfl, ?_, htidy⟩
  intro name'
  dsimp only
  by_cases hname : name' = name
  · rw [hname, Function.update_self, Option.isSome_map]
  · rw [Function.update_of_ne hname]

theorem Kernel.Works.track (k : Kernel) (hosted : HostedPlace) {key : Key} (hkey : BelowRoot key)
    (file : FileInput) : k.Works (trackSource hosted key file k) :=
  Kernel.Works.update hosted.name _ (fun hk => tidy_track hk hosted hkey file)

theorem Kernel.Works.untrack (k : Kernel) (hosted : HostedPlace) (key : Key) :
    k.Works (k.untrack hosted key) :=
  Kernel.Works.update hosted.name _ (fun hk => tidy_untrack hk hosted key)

theorem Kernel.Works.schedule (k : Kernel) (hosted : HostedPlace) {key : Key}
    (hkey : BelowRoot key) : k.Works (k.scheduleRecheck hosted key) := by
  have htidy (hk : k.Tidy) := tidy_schedule hk hosted hkey
  unfold Kernel.scheduleRecheck at htidy ⊢
  split_ifs at htidy ⊢
  · exact Kernel.Works.refl k
  · exact ⟨rfl, rfl, fun _ => rfl, htidy⟩

theorem Kernel.Works.cancel (k : Kernel) (hosted : HostedPlace) (key : Key) :
    k.Works (k.cancelRecheck hosted key) :=
  ⟨rfl, rfl, fun _ => rfl, fun hk => tidy_cancel hk hosted key⟩

theorem Kernel.Works.stageAll (k : Kernel) (ep : EpochRef) (changes : Delta) :
    k.Works (k.stageAll ep changes) := by
  rcases stageAll_eq changes k ep with ⟨epochs, heq⟩
  rw [heq]
  exact Kernel.Works.of_same rfl rfl rfl rfl

/-- The answers of a disk that has no file where a place has its root. -/
def Ask.Regular (config : Config) (question : Ask) : question.reply -> Prop :=
  match question with
  | Ask.stat hosted key => fun (answer : Option DiskStat) => hosted ∈ config.places -> key = [] ->
      forall stats, answer = some stats -> stats.kind ≠ DiskKind.file
  | Ask.scan _ start => fun (answer : List (Key × FileInput)) => OfNames start ->
      forall file, file ∈ answer -> BelowRoot file.1
  | Ask.read _ _ _ => fun _ => True
  | Ask.allocate _ _ _ => fun _ => True
  | Ask.turn => fun _ => True
  | Ask.entryBytes _ _ _ => fun _ => True
  | Ask.compress _ _ => fun _ => True

def working (config : Config) : Async.Contract Ask.reply Kernel :=
  { guar := Kernel.Works
    rely := fun _ _ => True
    answers := fun question answer _ => question.Regular config answer }

theorem working_shared : (working config).Shared := by
  constructor
  · exact ⟨Kernel.Works.refl, fun _ _ _ => Kernel.Works.trans⟩
  · intro _ _ _
    exact trivial
  · intro _ _ _ _ _
    exact trivial

theorem working_publishes (hosted : HostedPlace) {key : Key} (hkey : BelowRoot key) :
    Publishes (working config) hosted key := by
  constructor
  · intro k ep built _ _
    exact (Kernel.Works.stageAll k ep _).trans (Kernel.Works.of_same rfl rfl rfl rfl)
  · intro k file own _ _
    exact Kernel.Works.of_same rfl rfl rfl rfl
  · exact fun k file => Kernel.Works.track k hosted hkey file
  · exact fun k _ => Kernel.Works.schedule k hosted hkey

theorem working_handles (hosted : HostedPlace) : Handles (working config) hosted := by
  constructor
  · exact fun _ _ _ => Kernel.Works.of_same rfl rfl rfl rfl
  · exact fun k key => Kernel.Works.cancel k hosted key

theorem working_removes (hosted : HostedPlace) (key : Key) :
    Removes (working config) hosted key := by
  intro source dropped _ k ep
  have hcancelled := (Kernel.Works.untrack k hosted dropped).trans
    (Kernel.Works.cancel _ hosted dropped)
  show k.Works (k.dropSource ep hosted dropped)
  unfold Kernel.dropSource
  dsimp only
  split_ifs
  · apply hcancelled.trans
    unfold Kernel.removeMap
    dsimp only
    split_ifs
    · exact Kernel.Works.of_same rfl rfl rfl rfl
    · exact Kernel.Works.refl _
  · exact hcancelled.trans (Kernel.Works.stageAll _ ep _)

/-- What a path of the watcher or of a timer may be. -/
def Regular (config : Config) (hosted : HostedPlace) (key : Key) : Prop :=
  BelowRoot key ∨ hosted ∈ config.places ∧ OfNames key

theorem working_refreshes {hosted : HostedPlace} {key : Key} (h : Regular config hosted key) :
    Refreshes (working config) hosted key := by
  constructor
  · intro _ stats _ hanswer hkind
    apply working_publishes
    rcases h with hbelow | ⟨hmem, hnames⟩
    · exact hbelow
    · apply hnames.below
      intro hnil
      exact hanswer hmem hnil stats rfl hkind
  · exact fun _ _ => working_removes hosted key

theorem working_rescans {hosted : HostedPlace} {key : Key} (h : OfNames key) :
    Rescans (working config) (fun _ => True) hosted key :=
  fun _ _ hanswer file hmem _ _ _ => working_publishes hosted (hanswer h file hmem)

/-- The paths of a task of the watch queue. -/
def Serial.Regular (config : Config) (task : Serial) : Prop :=
  match task with
  | Serial.epoch events => forall event, event ∈ events ->
      event.1 ∈ config.places ∧ OfNames event.2.1
  | Serial.recheck _ key => BelowRoot key

theorem working_allowed {task : Serial} (h : task.Regular config) :
    task.Allowed (working config) (fun _ => True) := by
  cases task with
  | recheck hosted key => exact ⟨working_handles hosted, working_refreshes (Or.inl h)⟩
  | epoch events =>
      intro event hmem
      have hevent := h event hmem
      constructor
      · exact working_handles event.1
      · cases event.2.2 with
        | change => exact working_refreshes (Or.inr hevent)
        | scan => exact working_rescans hevent.2
        | delete => exact ⟨working_refreshes (Or.inr hevent), working_rescans hevent.2⟩

theorem working_commits : Commits (working config) := by
  constructor
  · intro k
    exact Kernel.Works.of_same rfl rfl rfl rfl
  · intro k index ep _ hcache
    show k.Works (k.commit index (k.epoch ep).changes.entries)
    unfold Kernel.commit
    dsimp only
    split_ifs
    · exact Kernel.Works.of_same rfl (by rw [hcache]; rfl) rfl rfl
    · exact Kernel.Works.of_same rfl (by rw [hcache]; rfl) rfl rfl

/-!
# The tasks a step leaves in flight
-/

/-- What a step of a task with this role adds has this role too. -/
structure Runtime.Adds (r r' : Runtime) (role : Role) : Prop where
  init : r'.init = r.init
  tasks : forall id task, r'.tasks.get id = some task ->
    r.tasks.get id = some task ∨ task.role = role

theorem Runtime.Adds.trans {r r' r'' : Runtime} {role : Role} (h : r.Adds r' role)
    (h' : r'.Adds r'' role) : r.Adds r'' role := by
  constructor
  · exact h'.init.trans h.init
  · intro id task hget
    rcases h'.tasks id task hget with hold | hrole
    · exact h.tasks id task hold
    · exact Or.inr hrole

theorem Runtime.Adds.of_same {r r' : Runtime} {role : Role}
    (h : r'.init = r.init ∧ r'.tasks = r.tasks) : r.Adds r' role := by
  constructor
  · exact h.1
  · intro id task hget
    rw [h.2] at hget
    exact Or.inl hget

theorem suspend_adds (r : Runtime) (role : Role) (question : Ask)
    (next : question.reply -> Prog Unit) : r.Adds (r.suspend role question next) role := by
  constructor
  · rfl
  · intro id task hget
    unfold Runtime.suspend at hget
    dsimp only at hget
    rw [OrderedMap.get_set] at hget
    split_ifs at hget
    · cases hget
      exact Or.inr rfl
    · exact Or.inl hget

theorem feed_adds (ep : EpochRef) (queue : List (HostedPlace × Key × FileInput)) (r : Runtime) :
    r.Adds (Runtime.feed ep queue r) (Role.entry ep) := by
  induction queue generalizing r with
  | nil => exact Runtime.Adds.of_same ⟨rfl, rfl⟩
  | cons item rest ih =>
      rcases item with ⟨hosted, key, file⟩
      unfold Runtime.feed
      cases Async.run (publishEntry ep hosted key file) r.kernel with
      | mk k paused =>
          cases paused with
          | returned value =>
              have hset : r.Adds (r.setKernel k) (Role.entry ep) := Runtime.Adds.of_same ⟨rfl, rfl⟩
              exact hset.trans (ih (r.setKernel k))
          | threw error => exact Runtime.Adds.of_same ⟨rfl, rfl⟩
          | waiting question next =>
              have hset : r.Adds { r.setKernel k with queue := rest } (Role.entry ep) :=
                Runtime.Adds.of_same ⟨rfl, rfl⟩
              exact hset.trans (suspend_adds _ _ question next)

theorem ended_adds (r : Runtime) (ok : Bool) (role : Role) : r.Adds (r.ended ok role) role := by
  cases role with
  | entry ep =>
      unfold Runtime.ended
      dsimp only
      split_ifs
      · exact Runtime.Adds.of_same ⟨rfl, rfl⟩
      · exact feed_adds ep r.queue r
      · exact Runtime.Adds.of_same ⟨rfl, rfl⟩
  | job ep => exact Runtime.Adds.of_same ⟨rfl, rfl⟩
  | recheck => exact Runtime.Adds.of_same ⟨rfl, rfl⟩
  | mutation => exact Runtime.Adds.of_same ⟨rfl, rfl⟩

theorem runTask_adds (r : Runtime) (role : Role) (x : Prog Unit) :
    r.Adds (r.runTask role x) role := by
  unfold Runtime.runTask
  cases Async.run x r.kernel with
  | mk k paused =>
      have hset : r.Adds (r.setKernel k) role := Runtime.Adds.of_same ⟨rfl, rfl⟩
      cases paused with
      | returned value => exact hset.trans (ended_adds _ true role)
      | threw error => exact hset.trans (ended_adds _ false role)
      | waiting question next => exact hset.trans (suspend_adds _ role question next)

theorem startWorkers_adds (ep : EpochRef) (n : Nat) (r : Runtime) :
    r.Adds (Runtime.startWorkers ep n r) (Role.entry ep) := by
  induction n generalizing r with
  | zero => exact Runtime.Adds.of_same ⟨rfl, rfl⟩
  | succ n ih =>
      unfold Runtime.startWorkers
      apply Runtime.Adds.trans _ (ih _)
      split_ifs
      · exact Runtime.Adds.of_same ⟨rfl, rfl⟩
      · exact feed_adds ep r.queue r

theorem startJobs_adds (ep : EpochRef) (events : List (HostedPlace × Key × Change))
    (r : Runtime) : r.Adds (events.foldl (Runtime.startJob ep) r) (Role.job ep) := by
  induction events generalizing r with
  | nil => exact Runtime.Adds.of_same ⟨rfl, rfl⟩
  | cons event rest ih =>
      apply Runtime.Adds.trans _ (ih _)
      unfold Runtime.startJob
      split_ifs
      · exact runTask_adds r _ _
      · exact Runtime.Adds.of_same ⟨rfl, rfl⟩

theorem feed_running (ep : EpochRef) (queue : List (HostedPlace × Key × FileInput))
    (r : Runtime) : (Runtime.feed ep queue r).running = r.running := by
  induction queue generalizing r with
  | nil => rfl
  | cons item rest ih =>
      rcases item with ⟨hosted, key, file⟩
      unfold Runtime.feed
      cases Async.run (publishEntry ep hosted key file) r.kernel with
      | mk k paused =>
          cases paused with
          | returned value => exact ih _
          | threw error => rfl
          | waiting question next => rfl

theorem startWorkers_running (ep : EpochRef) (n : Nat) (r : Runtime) :
    (Runtime.startWorkers ep n r).running = r.running := by
  induction n generalizing r with
  | zero => rfl
  | succ n ih =>
      unfold Runtime.startWorkers
      rw [ih]
      split_ifs
      · rfl
      · exact feed_running ep r.queue r

theorem ended_running {role : Role} (h : role ≠ Role.recheck) (r : Runtime) (ok : Bool) :
    (r.ended ok role).running = r.running := by
  cases role with
  | entry ep =>
      unfold Runtime.ended
      dsimp only
      split_ifs
      · rfl
      · exact feed_running ep r.queue r
      · rfl
  | job ep => rfl
  | recheck => exact absurd rfl h
  | mutation => rfl

/-- Only the end of a recheck ends a turn of the watch queue. -/
theorem runTask_running {role : Role} (h : role ≠ Role.recheck) (r : Runtime) (x : Prog Unit) :
    (r.runTask role x).running = r.running := by
  unfold Runtime.runTask
  cases Async.run x r.kernel with
  | mk k paused =>
      cases paused with
      | returned value => exact ended_running h _ true
      | threw error => exact ended_running h _ false
      | waiting question next => rfl

theorem startJobs_running (ep : EpochRef) (events : List (HostedPlace × Key × Change))
    (r : Runtime) : (events.foldl (Runtime.startJob ep) r).running = r.running := by
  induction events generalizing r with
  | nil => rfl
  | cons event rest ih =>
      rw [List.foldl_cons, ih]
      unfold Runtime.startJob
      split_ifs
      · exact runTask_running (by intro heq; cases heq) r _
      · rfl

/-- How a recheck goes on: it is suspended again, or its turn ends. -/
theorem runTask_recheck (r : Runtime) (x : Prog Unit) :
    (exists question next, (r.runTask Role.recheck x).tasks =
        r.tasks.set r.nextTask ⟨Role.recheck, question, next⟩ ∧
      (r.runTask Role.recheck x).running = r.running) ∨
    ((r.runTask Role.recheck x).tasks = r.tasks ∧ (r.runTask Role.recheck x).running = none) := by
  unfold Runtime.runTask
  cases Async.run x r.kernel with
  | mk k paused =>
      cases paused with
      | returned value => exact Or.inr ⟨rfl, rfl⟩
      | threw error => exact Or.inr ⟨rfl, rfl⟩
      | waiting question next => exact Or.inl ⟨question, next, rfl, rfl⟩

/-!
# What is in flight
-/

def Init.Publishing : Init -> Prop
  | Init.publishing _ _ => True
  | _ => False

theorem Init.Publishing.underway {init : Init} (h : init.Publishing) : init.Underway := by
  cases init with
  | publishing ep rest => exact trivial
  | _ => exact h.elim

/-- Publications are those of {lit}`initialize`, jobs those of the running epoch, and a
recheck runs alone. -/
structure Runtime.Orderly (config : Config) (r : Runtime) : Prop where
  sound : r.Sound (working config)
  tidy : r.kernel.Tidy
  origin : forall ep hosted rest files, r.init = Init.originated ep hosted rest (some files) ->
    forall file, file ∈ files -> BelowRoot file.1
  cached : r.kernel.state = KernelState.initializing ∨ r.kernel.state = KernelState.ready ->
    r.kernel.cache.isSome = true
  underway : r.init.Underway -> r.kernel.state = KernelState.initializing
  fresh : r.kernel.state = KernelState.new -> forall id, r.tasks.get id = none
  entries : forall id task ep, r.tasks.get id = some task -> task.role = Role.entry ep ->
    r.init.Publishing ∨ r.kernel.state = KernelState.closed
  jobs : forall id task ep, r.tasks.get id = some task -> task.role = Role.job ep ->
    r.running = some (Running.epoch ep)
  recheck : forall id task, r.tasks.get id = some task -> task.role = Role.recheck ->
    r.running = some Running.recheck ∧ forall id' task', r.tasks.get id' = some task' ->
      task'.role = Role.recheck -> id' = id
  mutation : forall id task, r.tasks.get id = some task -> task.role ≠ Role.mutation

/-- When the turn of an epoch comes, nothing is in flight. -/
theorem Runtime.Orderly.idle {r : Runtime} (h : r.Orderly config)
    (hready : r.kernel.state = KernelState.ready) (hrunning : r.running = none) (id : Nat) :
    r.tasks.get id = none := by
  cases hget : r.tasks.get id with
  | none => rfl
  | some task =>
      cases hrole : task.role with
      | entry ep =>
          rcases h.entries id task ep hget hrole with hpublishing | hclosed
          · cases hready.symm.trans (h.underway hpublishing.underway)
          · cases hready.symm.trans hclosed
      | job ep => cases hrunning.symm.trans (h.jobs id task ep hget hrole)
      | recheck => cases hrunning.symm.trans (h.recheck id task hget hrole).1
      | mutation => exact absurd hrole (h.mutation id task hget)

/-- While an epoch runs, all that is in flight are its jobs. -/
theorem Runtime.Orderly.job {r : Runtime} (h : r.Orderly config)
    (hready : r.kernel.state = KernelState.ready) {ep : EpochRef}
    (hrunning : r.running = some (Running.epoch ep)) {id : Nat} {task : Suspended}
    (hget : r.tasks.get id = some task) : task.role = Role.job ep := by
  cases hrole : task.role with
  | entry ep' =>
      rcases h.entries id task ep' hget hrole with hpublishing | hclosed
      · cases hready.symm.trans (h.underway hpublishing.underway)
      · cases hready.symm.trans hclosed
  | job ep' =>
      cases hrunning.symm.trans (h.jobs id task ep' hget hrole)
      rfl
  | recheck => cases hrunning.symm.trans (h.recheck id task hget hrole).1
  | mutation => exact absurd hrole (h.mutation id task hget)

/-- A step of the kernel's own functions, which leaves {lit}`initialize` where it is. -/
theorem Runtime.Orderly.moves {r r' : Runtime} (h : r.Orderly config)
    (hmoves : r.Moves (working config) r')
    (htasks : r.kernel.state = KernelState.new -> forall id, r'.tasks.get id = none)
    (hentries : forall id task ep, r'.tasks.get id = some task -> task.role = Role.entry ep ->
      r.init.Publishing ∨ r.kernel.state = KernelState.closed)
    (hjobs : forall id task ep, r'.tasks.get id = some task -> task.role = Role.job ep ->
      r'.running = some (Running.epoch ep))
    (hrecheck : forall id task, r'.tasks.get id = some task -> task.role = Role.recheck ->
      r'.running = some Running.recheck ∧ forall id' task', r'.tasks.get id' = some task' ->
        task'.role = Role.recheck -> id' = id)
    (hmutation : forall id task, r'.tasks.get id = some task -> task.role ≠ Role.mutation) :
    r'.Orderly config := by
  have hworks : r.kernel.Works r'.kernel := hmoves.kernel
  constructor
  · exact hmoves.sound
  · exact hworks.tidy h.tidy
  · rw [hmoves.init]
    exact h.origin
  · rw [hworks.state, hworks.cache]
    exact h.cached
  · rw [hmoves.init, hworks.state]
    exact h.underway
  · rw [hworks.state]
    exact htasks
  · rw [hmoves.init, hworks.state]
    exact hentries
  · exact hjobs
  · exact hrecheck
  · exact hmutation

/-- A step that leaves no other tasks in flight. -/
theorem Runtime.Orderly.of_fewer {r r' : Runtime} (h : r.Orderly config)
    (hmoves : r.Moves (working config) r')
    (htasks : forall id task, r'.tasks.get id = some task -> r.tasks.get id = some task)
    (hrunning : r'.running = r.running) : r'.Orderly config := by
  apply h.moves hmoves
  · intro hnew id
    cases hget : r'.tasks.get id with
    | none => rfl
    | some task => cases (h.fresh hnew id).symm.trans (htasks id task hget)
  · exact fun id task ep hget => h.entries id task ep (htasks id task hget)
  · rw [hrunning]
    exact fun id task ep hget => h.jobs id task ep (htasks id task hget)
  · rw [hrunning]
    intro id task hget hrole
    rcases h.recheck id task (htasks id task hget) hrole with ⟨hrun, hunique⟩
    exact ⟨hrun, fun id' task' hget' => hunique id' task' (htasks id' task' hget')⟩
  · exact fun id task hget => h.mutation id task (htasks id task hget)

theorem get_of_delete {r : Runtime} {id id' : Nat} {task : Suspended}
    (h : (r.tasks.delete id).get id' = some task) : id' ≠ id ∧ r.tasks.get id' = some task := by
  rw [OrderedMap.get_delete] at h
  split_ifs at h with heq
  exact ⟨heq, h⟩

theorem resume_orderly {r : Runtime} (h : r.Orderly config) {id : Nat} {task : Suspended}
    (hget : r.tasks.get id = some task) {answer : task.question.reply}
    (hanswer : task.question.Regular config answer) :
    (r.resume id task answer).Orderly config := by
  have hc : (working config).Shared := working_shared
  have hmoves : r.Moves (working config) (r.resume id task answer) :=
    Runtime.Moves.resume hc h.sound hget hanswer
  have hadds := runTask_adds { r with tasks := r.tasks.delete id } task.role (task.next answer)
  have htasks : forall id' task', (r.resume id task answer).tasks.get id' = some task' ->
      id' ≠ id ∧ r.tasks.get id' = some task' ∨ task'.role = task.role := by
    intro id' task' hget'
    exact (hadds.tasks id' task' hget').imp_left get_of_delete
  have hnew : r.kernel.state = KernelState.new ->
      forall id', (r.resume id task answer).tasks.get id' = none := by
    intro hnew
    cases (h.fresh hnew id).symm.trans hget
  have hmutation := h.mutation id task hget
  by_cases hrole : task.role = Role.recheck
  · have halone : forall id' task', id' ≠ id -> r.tasks.get id' = some task' ->
        task'.role ≠ Role.recheck :=
      fun id' task' hne hget' hrecheck =>
        hne ((h.recheck id task hget hrole).2 id' task' hget' hrecheck)
    have hrun := (h.recheck id task hget hrole).1
    apply h.moves hmoves hnew
    · intro id' task' ep hget' hentry
      rcases htasks id' task' hget' with ⟨_, hold⟩ | hsame
      · exact h.entries id' task' ep hold hentry
      · cases hentry.symm.trans (hsame.trans hrole)
    · intro id' task' ep hget' hjob
      rcases htasks id' task' hget' with ⟨_, hold⟩ | hsame
      · cases hrun.symm.trans (h.jobs id' task' ep hold hjob)
      · cases hjob.symm.trans (hsame.trans hrole)
    · intro id' task' hget' hrecheck
      have hcases := runTask_recheck { r with tasks := r.tasks.delete id } (task.next answer)
      rw [← hrole] at hcases
      rcases hcases with ⟨question, next, heq, hrunning⟩ | ⟨heq, _⟩
      · have hself : forall id'' task'', (r.resume id task answer).tasks.get id'' = some task'' ->
            task''.role = Role.recheck -> id'' = r.nextTask := by
          intro id'' task'' hget'' hrecheck''
          have hset : ((r.tasks.delete id).set r.nextTask ⟨task.role, question, next⟩).get id'' =
              some task'' := (congrArg (fun tasks => OrderedMap.get tasks id'') heq).symm.trans hget''
          rw [OrderedMap.get_set] at hset
          split_ifs at hset with hid
          · exact hid
          · rcases get_of_delete hset with ⟨hne, hold⟩
            exact absurd hrecheck'' (halone id'' task'' hne hold)
        constructor
        · exact hrunning.trans hrun
        · intro id'' task'' hget'' hrecheck''
          rw [hself id' task' hget' hrecheck, hself id'' task'' hget'' hrecheck'']
      · have hold : (r.tasks.delete id).get id' = some task' :=
          (congrArg (fun tasks => OrderedMap.get tasks id') heq).symm.trans hget'
        rcases get_of_delete hold with ⟨hne, hbefore⟩
        exact absurd hrecheck (halone id' task' hne hbefore)
    · intro id' task' hget' hrole'
      rcases htasks id' task' hget' with ⟨_, hold⟩ | hsame
      · exact h.mutation id' task' hold hrole'
      · exact hmutation (hsame.symm.trans hrole')
  · have hrunning : (r.resume id task answer).running = r.running :=
      runTask_running hrole { r with tasks := r.tasks.delete id } (task.next answer)
    have hknown : forall id' task', (r.resume id task answer).tasks.get id' = some task' ->
        exists id'' task'', r.tasks.get id'' = some task'' ∧ task''.role = task'.role := by
      intro id' task' hget'
      rcases htasks id' task' hget' with ⟨_, hold⟩ | hsame
      · exact ⟨id', task', hold, rfl⟩
      · exact ⟨id, task, hget, hsame.symm⟩
    apply h.moves hmoves hnew
    · intro id' task' ep hget' hentry
      rcases hknown id' task' hget' with ⟨id'', task'', hold, hsame⟩
      exact h.entries id'' task'' ep hold (hsame.trans hentry)
    · intro id' task' ep hget' hjob
      rcases hknown id' task' hget' with ⟨id'', task'', hold, hsame⟩
      exact hrunning.trans (h.jobs id'' task'' ep hold (hsame.trans hjob))
    · intro id' task' hget' hrecheck
      have hbefore : forall id'' task'', (r.resume id task answer).tasks.get id'' = some task'' ->
          task''.role = Role.recheck -> r.tasks.get id'' = some task'' := by
        intro id'' task'' hget'' hrecheck''
        rcases htasks id'' task'' hget'' with ⟨_, hold⟩ | hsame
        · exact hold
        · exact absurd (hsame.symm.trans hrecheck'') hrole
      rcases h.recheck id' task' (hbefore id' task' hget' hrecheck) hrecheck with ⟨hrun, hunique⟩
      constructor
      · exact hrunning.trans hrun
      · intro id'' task'' hget'' hrecheck''
        exact hunique id'' task'' (hbefore id'' task'' hget'' hrecheck'') hrecheck''
    · intro id' task' hget' hrole'
      rcases hknown id' task' hget' with ⟨id'', task'', hold, hsame⟩
      exact h.mutation id'' task'' hold (hsame.trans hrole')

theorem serialTurn_orderly {r : Runtime} (h : r.Orderly config) (hrunning : r.running = none)
    {task : Serial} (htask : task.Regular config) (rest : List Serial) : (r.serialTurn task rest).Orderly config := by
  have hc : (working config).Shared := working_shared
  have hmoves : r.Moves (working config) (r.serialTurn task rest) :=
    Runtime.Moves.serialTurn hc (working config).stable_true working_commits h.sound trivial rest
      (working_allowed htask)
  by_cases hready : r.kernel.state = KernelState.ready
  · have hidle := h.idle hready hrunning
    have hnew : r.kernel.state ≠ KernelState.new := by
      intro hnew
      cases hready.symm.trans hnew
    have hturn : r.serialTurn task rest = Runtime.startSerial { r with serial := rest } task :=
      if_pos hready
    rw [hturn] at hmoves ⊢
    cases task with
    | epoch events =>
        have hadds := startJobs_adds r.kernel.nextEpoch events
          { Runtime.setKernel { r with serial := rest } r.kernel.openEpoch with
            running := some (Running.epoch r.kernel.nextEpoch) }
        have hrun := startJobs_running r.kernel.nextEpoch events
          { Runtime.setKernel { r with serial := rest } r.kernel.openEpoch with
            running := some (Running.epoch r.kernel.nextEpoch) }
        have hrole : forall id task,
            (Runtime.startSerial { r with serial := rest } (Serial.epoch events)).tasks.get id =
              some task -> task.role = Role.job r.kernel.nextEpoch := by
          intro id task hget
          rcases hadds.tasks id task hget with hold | hrole
          · cases (hidle id).symm.trans hold
          · exact hrole
        apply h.moves hmoves (fun hstate => absurd hstate hnew)
        · intro id task ep hget hentry
          cases hentry.symm.trans (hrole id task hget)
        · intro id task ep hget hjob
          cases hjob.symm.trans (hrole id task hget)
          exact hrun
        · intro id task hget hrecheck
          cases hrecheck.symm.trans (hrole id task hget)
        · intro id task hget hmutation
          cases hmutation.symm.trans (hrole id task hget)
    | recheck hosted key =>
        have hadds := runTask_adds
          { { r with serial := rest } with running := some Running.recheck } Role.recheck
          (recheck hosted key)
        have hrole : forall id task,
            (Runtime.startSerial { r with serial := rest } (Serial.recheck hosted key)).tasks.get id =
              some task -> task.role = Role.recheck := by
          intro id task hget
          rcases hadds.tasks id task hget with hold | hrole
          · cases (hidle id).symm.trans hold
          · exact hrole
        apply h.moves hmoves (fun hstate => absurd hstate hnew)
        · intro id task ep hget hentry
          cases hentry.symm.trans (hrole id task hget)
        · intro id task ep hget hjob
          cases hjob.symm.trans (hrole id task hget)
        · intro id task hget hrecheck
          rcases runTask_recheck
            { { r with serial := rest } with running := some Running.recheck }
            (recheck hosted key) with ⟨question, next, heq, hrun⟩ | ⟨heq, _⟩
          · have hself : forall id' task',
                (Runtime.startSerial { r with serial := rest }
                  (Serial.recheck hosted key)).tasks.get id' = some task' -> id' = r.nextTask := by
              intro id' task' hget'
              have hset : (r.tasks.set r.nextTask ⟨Role.recheck, question, next⟩).get id' =
                  some task' :=
                (congrArg (fun tasks => OrderedMap.get tasks id') heq).symm.trans hget'
              rw [OrderedMap.get_set] at hset
              split_ifs at hset with hid
              · exact hid
              · cases (hidle id').symm.trans hset
            constructor
            · exact hrun
            · intro id' task' hget' _
              rw [hself id task hget, hself id' task' hget']
          · have hold : r.tasks.get id = some task :=
              (congrArg (fun tasks => OrderedMap.get tasks id) heq).symm.trans hget
            cases (hidle id).symm.trans hold
        · intro id task hget hmutation
          cases hmutation.symm.trans (hrole id task hget)
  · have hturn : r.serialTurn task rest = { r with serial := rest } := if_neg hready
    rw [hturn] at hmoves ⊢
    exact h.of_fewer hmoves (fun _ _ hget => hget) rfl

theorem endEpoch_orderly {r : Runtime} (h : r.Orderly config) {ep : EpochRef}
    (hrunning : r.running = some (Running.epoch ep)) (hpending : ¬ r.Pending (Runtime.isJob ep)) :
    (r.endEpoch ep).Orderly config := by
  have hc : (working config).Shared := working_shared
  apply h.moves (Runtime.Moves.endEpoch hc working_commits h.sound ep) h.fresh h.entries
  · intro id task ep' hget hjob
    exfalso
    apply hpending
    refine ⟨id, task, hget, ?_⟩
    cases hrunning.symm.trans (h.jobs id task ep' hget hjob)
    rw [hjob]
    rfl
  · intro id task hget hrecheck
    cases hrunning.symm.trans (h.recheck id task hget hrecheck).1
  · exact h.mutation

/-!
# Initialization
-/

/-- {lit}`initialize` goes on, or ends. -/
theorem Runtime.Orderly.goes {r r' : Runtime} (h : r.Orderly config)
    (hsame : r'.tasks = r.tasks ∧ r'.running = r.running ∧ r'.queue = r.queue)
    (htidy : r'.kernel.Tidy)
    (horigin : forall ep hosted rest files, r'.init = Init.originated ep hosted rest (some files) ->
      forall file, file ∈ files -> BelowRoot file.1)
    (hstate : r'.kernel.state ≠ KernelState.new)
    (hcached : r'.kernel.state ≠ KernelState.closed -> r'.kernel.cache.isSome = true)
    (hinit : r'.init.Underway -> r'.kernel.state = KernelState.initializing)
    (hentries : r'.kernel.state = KernelState.closed ∨ forall id task ep,
      r.tasks.get id = some task -> task.role ≠ Role.entry ep) : r'.Orderly config := by
  rcases hsame with ⟨htasks, hrunning, hqueue⟩
  constructor
  · constructor
    · rw [htasks]
      exact h.sound.tasks
    · rw [hqueue]
      exact h.sound.queue
  · exact htidy
  · exact horigin
  · intro hstate
    apply hcached
    intro hclosed
    rcases hstate with hinitializing | hready
    · cases hinitializing.symm.trans hclosed
    · cases hready.symm.trans hclosed
  · exact hinit
  · exact fun hnew => absurd hnew hstate
  · rw [htasks]
    intro id task ep hget hentry
    rcases hentries with hclosed | hnone
    · exact Or.inr hclosed
    · exact absurd hentry (hnone id task ep hget)
  · rw [htasks, hrunning]
    exact h.jobs
  · rw [htasks, hrunning]
    exact h.recheck
  · rw [htasks]
    exact h.mutation

theorem failInit_orderly {r : Runtime} (h : r.Orderly config) (k : Kernel) :
    (r.setKernel k).failInit.Orderly config := by
  apply h.goes
  · exact ⟨rfl, rfl, rfl⟩
  · constructor
    · intro name source hget
      cases hget
    · intro name key hhas
      cases hhas
  · intro ep hosted rest files hinit
    cases hinit
  · intro hnew
    cases hnew
  · intro hopen
    exact absurd rfl hopen
  · intro hinit
    exact hinit.elim
  · exact Or.inl rfl

theorem finishInit_orderly {r : Runtime} (h : r.Orderly config) (hunderway : r.init.Underway)
    (hentries : forall id task ep, r.tasks.get id = some task -> task.role ≠ Role.entry ep)
    (ep : EpochRef) : (r.finishInit config ep).Orderly config := by
  have hc : (working config).Shared := working_shared
  have hrun := run_keeps ((keeps_flush hc working_commits ep).ends hc r.kernel)
  unfold Runtime.finishInit
  revert hrun
  cases Async.run (flush ep) r.kernel with
  | mk k paused =>
      intro hrun
      cases paused with
      | threw error => exact failInit_orderly h k
      | waiting question next => exact failInit_orderly h k
      | returned value =>
          have hworks : r.kernel.Works k := hrun
          have hcache : k.cache.isSome = true :=
            hworks.cache.trans (h.cached (Or.inl (h.underway hunderway)))
          have hready : forall watcher, Runtime.Orderly config
              { r.setKernel { k with state := KernelState.ready, watcher := watcher } with
                init := Init.resolved } := by
            intro watcher
            apply h.goes
            · exact ⟨rfl, rfl, rfl⟩
            · exact (hworks.tidy h.tidy).of_same rfl rfl
            · intro ep' hosted rest files hinit
              cases hinit
            · intro hnew
              cases hnew
            · exact fun _ => hcache
            · intro hinit
              exact hinit.elim
            · exact Or.inr hentries
          dsimp only
          split_ifs
          · rcases watch_same config
              { r.setKernel { k with state := KernelState.ready } with init := Init.resolved } with
              ⟨watcher, heq⟩
            rw [heq]
            exact hready watcher
          · exact hready k.watcher

/-- What {lit}`seaKeyOf` makes of the assets of a place. -/
def Config.Embeds (config : Config) : Prop :=
  forall name files, config.assets name = some files ->
    forall file, file ∈ files -> BelowRoot file.1

theorem startOrigin_below (hembeds : config.Embeds) {ep ep' : EpochRef}
    {hosted hosted' : HostedPlace} {rest rest' : List HostedPlace}
    {files : List (Key × FileInput)}
    (h : Runtime.startOrigin config ep hosted rest = Init.originated ep' hosted' rest' (some files)) :
    forall file, file ∈ files -> BelowRoot file.1 := by
  unfold Runtime.startOrigin at h
  split_ifs at h
  · rcases Init.originated.inj h with ⟨_, _, _, hassets⟩
    exact hembeds hosted.name files hassets
  · cases (Init.originated.inj h).2.2.2

theorem nextPlace_orderly (hembeds : config.Embeds) {r : Runtime} (h : r.Orderly config)
    (hunderway : r.init.Underway)
    (hentries : forall id task ep, r.tasks.get id = some task -> task.role ≠ Role.entry ep)
    (ep : EpochRef) (rest : List HostedPlace) : (r.nextPlace config ep rest).Orderly config := by
  cases rest with
  | nil => exact finishInit_orderly h hunderway hentries ep
  | cons hosted rest =>
      have hstate := h.underway hunderway
      apply h.goes
      · exact ⟨rfl, rfl, rfl⟩
      · exact h.tidy
      · exact fun _ _ _ _ hinit => startOrigin_below hembeds hinit
      · intro hnew
        cases hstate.symm.trans hnew
      · exact fun _ => h.cached (Or.inl hstate)
      · exact fun _ => hstate
      · exact Or.inr hentries

theorem Runtime.Orderly.no_entries {r : Runtime} (h : r.Orderly config)
    (hunderway : r.init.Underway) (hpublishing : ¬ r.init.Publishing) {id : Nat} {task : Suspended} {ep : EpochRef}
    (hget : r.tasks.get id = some task) : task.role ≠ Role.entry ep := by
  intro hentry
  rcases h.entries id task ep hget hentry with hpublishes | hclosed
  · exact hpublishing hpublishes
  · cases hclosed.symm.trans (h.underway hunderway)

theorem initKernel_orderly (hembeds : config.Embeds) {r : Runtime} (h : r.Orderly config)
    (hnew : r.kernel.state = KernelState.new) : (r.initKernel config).Orderly config := by
  have hnone : forall id task ep, r.tasks.get id = some task -> task.role ≠ Role.entry ep := by
    intro id task ep hget
    cases (h.fresh hnew id).symm.trans hget
  have hscanning : forall init : Init,
      (forall ep hosted rest files, init = Init.originated ep hosted rest (some files) ->
        forall file, file ∈ files -> BelowRoot file.1) -> Runtime.Orderly config
      { r.setKernel (Kernel.openEpoch
          { r.kernel with
            state := KernelState.initializing
            cache := some (fun _ => PlaceFiles.empty) }) with init := init } := by
    intro init horigin
    apply h.goes
    · exact ⟨rfl, rfl, rfl⟩
    · exact h.tidy.of_same rfl rfl
    · exact horigin
    · intro hnew
      cases hnew
    · exact fun _ => rfl
    · exact fun _ => rfl
    · exact Or.inr hnone
  cases hplaces : config.places with
  | nil =>
      have hready := finishInit_orderly
        (hscanning (Init.publishing r.kernel.nextEpoch []) (fun _ _ _ _ hinit => by cases hinit))
        trivial hnone r.kernel.nextEpoch
      have hsame : r.initKernel config = Runtime.finishInit config r.kernel.nextEpoch
          { r.setKernel (Kernel.openEpoch
              { r.kernel with
                state := KernelState.initializing
                cache := some (fun _ => PlaceFiles.empty) }) with
            init := r.init } := by
        unfold Runtime.initKernel
        rw [hplaces]
        rfl
      rw [hsame]
      exact hready
  | cons hosted rest =>
      have hsame : r.initKernel config =
          { r.setKernel (Kernel.openEpoch
              { r.kernel with
                state := KernelState.initializing
                cache := some (fun _ => PlaceFiles.empty) }) with
            init := Runtime.startOrigin config r.kernel.nextEpoch hosted rest } := by
        unfold Runtime.initKernel
        rw [hplaces]
        rfl
      rw [hsame]
      exact hscanning _ (fun _ _ _ _ hinit => startOrigin_below hembeds hinit)

theorem originated_orderly (hembeds : config.Embeds) {r : Runtime} (h : r.Orderly config)
    {ep : EpochRef} {hosted : HostedPlace} {rest : List HostedPlace} {files : Option (List (Key × FileInput))}
    (hinit : r.init = Init.originated ep hosted rest files) :
    (r.originated config ep hosted rest files).Orderly config := by
  have hunderway : r.init.Underway := by
    rw [hinit]
    exact trivial
  have hnone : forall id task ep, r.tasks.get id = some task -> task.role ≠ Role.entry ep := by
    intro id task ep hget
    apply h.no_entries hunderway _ hget
    intro hpublishing
    rw [hinit] at hpublishing
    exact hpublishing.elim
  cases files with
  | none => exact nextPlace_orderly hembeds h hunderway hnone ep rest
  | some files =>
      have hc : (working config).Shared := working_shared
      have hmoves := Runtime.Moves.publishAll hc config ep h.sound
        (fun (file : Key × FileInput) (hfile : file ∈ files) =>
          working_publishes hosted (h.origin ep hosted rest files hinit file hfile))
      have hworks : r.kernel.Works (Runtime.publishAll config ep hosted files r).kernel :=
        hmoves.kernel
      have hstate := hworks.state.trans (h.underway hunderway)
      have hadds : forall id task, (Runtime.publishAll config ep hosted files r).tasks.get id =
          some task -> r.tasks.get id = some task ∨ task.role = Role.entry ep := by
        intro id task hget
        unfold Runtime.publishAll at hget
        have hstarted := (startWorkers_adds ep _ _).tasks id task hget
        exact hstarted
      have hrunning : (Runtime.publishAll config ep hosted files r).running = r.running := by
        unfold Runtime.publishAll
        dsimp only
        rw [startWorkers_running]
      constructor
      · exact ⟨hmoves.sound.tasks, hmoves.sound.queue⟩
      · exact hworks.tidy h.tidy
      · intro ep' hosted' rest' files' hpublishing
        cases hpublishing
      · exact fun _ => hworks.cache.trans (h.cached (Or.inl (h.underway hunderway)))
      · exact fun _ => hstate
      · intro hnew
        cases hstate.symm.trans hnew
      · exact fun _ _ _ _ _ => Or.inl trivial
      · intro id task ep' hget hjob
        rcases hadds id task hget with hold | hentry
        · exact hrunning.trans (h.jobs id task ep' hold hjob)
        · cases hjob.symm.trans hentry
      · intro id task hget hrecheck
        rcases hadds id task hget with hold | hentry
        · rcases h.recheck id task hold hrecheck with ⟨hrun, hunique⟩
          constructor
          · exact hrunning.trans hrun
          · intro id' task' hget' hrecheck'
            rcases hadds id' task' hget' with hold' | hentry'
            · exact hunique id' task' hold' hrecheck'
            · cases hrecheck'.symm.trans hentry'
        · cases hrecheck.symm.trans hentry
      · intro id task hget hmutation
        rcases hadds id task hget with hold | hentry
        · exact h.mutation id task hold hmutation
        · cases hmutation.symm.trans hentry

theorem scanned_orderly {r : Runtime} (h : r.Orderly config) {ep : EpochRef}
    {hosted : HostedPlace} {rest : List HostedPlace} (hinit : r.init = Init.scanning ep hosted rest)
    {files : List (Key × FileInput)} (hfiles : forall file, file ∈ files -> BelowRoot file.1) :
    (r.scanned ep hosted rest files).Orderly config := by
  have hunderway : r.init.Underway := by
    rw [hinit]
    exact trivial
  have hstate := h.underway hunderway
  apply h.goes
  · exact ⟨rfl, rfl, rfl⟩
  · apply h.tidy.update
    intro source heq
    cases heq
    exact ⟨PlaceFiles.empty_indexed, PlaceFiles.empty_rooted⟩
  · intro ep' hosted' rest' files' heq
    cases heq
    exact hfiles
  · intro hnew
    cases hstate.symm.trans hnew
  · exact fun _ => h.cached (Or.inl hstate)
  · exact fun _ => hstate
  · right
    intro id task ep' hget
    apply h.no_entries hunderway _ hget
    intro hpublishing
    rw [hinit] at hpublishing
    exact hpublishing.elim

/-!
# Runs
-/

/-- No place has its root where a file is. -/
def Disk.Hosts (config : Config) (d : Disk) : Prop :=
  forall hosted, hosted ∈ config.places -> forall stats,
    d.stat (hosted.pathOf []) = Except.ok stats -> stats.kind ≠ DiskKind.file

theorem scan_below {d : Disk} {hosted : HostedPlace} {start : Key} (hstart : OfNames start)
    {file : Key × FileInput} (h : file ∈ d.scan strict hosted start) : BelowRoot file.1 := by
  rcases Disk.mem_scan h with ⟨entries, entry, hfind, hmem, hentry⟩
  rcases Disk.locate_of_find hfind with ⟨loc, _, hget⟩
  have hproper := (Node.proper_get d.proper hget).1
  have hleaf := (Node.mem_leaves hproper entry.1 entry.2).mp hmem
  rw [(Disk.addFile_stat (Disk.scanEntry_addFile hentry).1).1]
  rcases hstart with ⟨names, _, heq⟩
  rw [heq, ← PosixPath.text_append]
  cases hnames : names ++ entry.1 with
  | nil =>
      have hnil := (List.append_eq_nil_iff.mp hnames).2
      rw [hnil] at hleaf
      have hself : some (Node.directory entries) = some entry.2 := hleaf.1
      rw [← Option.some.inj hself] at hleaf
      cases hleaf.2
  | cons name rest => exact ⟨name ++ PosixPath.text rest, rfl⟩

theorem Disk.Hosts.regular {d : Disk} (h : d.Hosts config) {question : Ask}
    {answer : question.reply} (hanswer : d.Answers strict question answer) :
    question.Regular config answer := by
  cases question with
  | stat hosted key =>
      intro hmem hkey stats hstats
      have hstat : answer = (d.stat (hosted.pathOf key)).toOption := hanswer
      rw [hstats, hkey] at hstat
      apply h hosted hmem stats
      cases hd : d.stat (hosted.pathOf []) with
      | error error =>
          rw [hd] at hstat
          cases hstat
      | ok found =>
          rw [hd] at hstat
          cases hstat
          rfl
  | scan hosted start =>
      intro hstart file hmem
      have hscan : answer = d.scan strict hosted start := hanswer
      rw [hscan] at hmem
      exact scan_below hstart hmem
  | read hosted key file => exact trivial
  | allocate hosted key input => exact trivial
  | turn => exact trivial
  | entryBytes hosted key data => exact trivial
  | compress hosted key => exact trivial

/-- The watcher has only paths of the places to tell of. -/
structure World.Orderly (config : Config) (w : World) : Prop where
  raised : forall event, event ∈ w.raised -> event.1 ∈ config.places ∧ OfNames event.2.1
  queue : forall entry, entry ∈ w.queue.entries ->
    entry.2.1 ∈ config.places ∧ OfNames entry.1.2
  serial : forall task, task ∈ w.runtime.serial -> task.Regular config
  runtime : w.runtime.Orderly config

theorem World.Orderly.advance {w : World} (h : w.Orderly config) {r : Runtime}
    (hserial : forall task, task ∈ r.serial -> task.Regular config) (hr : r.Orderly config) :
    (w.advance r).Orderly config :=
  ⟨h.raised, h.queue, hserial, hr⟩

theorem finishInit_serial (config : Config) (ep : EpochRef) (r : Runtime) :
    (r.finishInit config ep).serial = r.serial := by
  unfold Runtime.finishInit
  cases Async.run (flush ep) r.kernel with
  | mk k paused =>
      cases paused with
      | threw error => rfl
      | waiting question next => rfl
      | returned value =>
          dsimp only
          split_ifs
          · rcases watch_same config
              { r.setKernel { k with state := KernelState.ready } with init := Init.resolved } with
              ⟨watcher, heq⟩
            rw [heq]
            rfl
          · rfl

theorem nextPlace_serial (config : Config) (ep : EpochRef) (r : Runtime)
    (rest : List HostedPlace) : (r.nextPlace config ep rest).serial = r.serial := by
  cases rest with
  | nil => exact finishInit_serial config ep r
  | cons hosted rest => rfl

theorem originated_serial (config : Config) (ep : EpochRef) (hosted : HostedPlace)
    (rest : List HostedPlace) (files : Option (List (Key × FileInput))) (r : Runtime) :
    (r.originated config ep hosted rest files).serial = r.serial := by
  cases files with
  | none => exact nextPlace_serial config ep r rest
  | some files =>
      show (Runtime.publishAll config ep hosted files r).serial = r.serial
      unfold Runtime.publishAll
      dsimp only
      rw [startWorkers_serial]

theorem resume_serial (r : Runtime) (id : Nat) (task : Suspended) (answer : task.question.reply) :
    (r.resume id task answer).serial = r.serial := runTask_serial _ _ _

theorem World.Orderly.step (hembeds : config.Embeds) {w w' : World} {turn : Option Serial}
    (h : w.Orderly config) (hhosts : w.disk.Hosts config)
    (hstep : World.Step config strict w turn w') : w'.Orderly config := by
  cases hstep with
  | change d hquiet => exact ⟨h.raised, h.queue, h.serial, h.runtime⟩
  | raise hosted names event hwatcher hmem hsources hplain hclassify =>
      refine ⟨?_, h.queue, h.serial, h.runtime⟩
      intro raised hin
      rcases List.mem_append.mp hin with hold | hnew
      · exact h.raised raised hold
      · rw [List.mem_singleton.mp hnew]
        exact ⟨hmem, names, hplain, rfl⟩
  | enqueue before after hosted key event heq =>
      constructor
      · intro raised hin
        apply h.raised
        rw [heq]
        rcases List.mem_append.mp hin with hfirst | hlast
        · exact List.mem_append_left _ hfirst
        · exact List.mem_append_right _ (List.mem_cons_of_mem _ hlast)
      · intro entry hin
        have hget := OrderedMap.mem_entries_iff.mp hin
        dsimp only at hget
        rw [OrderedMap.get_set] at hget
        by_cases hkey : entry.1 = (hosted.name, key)
        · rw [if_pos hkey] at hget
          have hraised : (hosted, key, event) ∈ w.raised := by
            rw [heq]
            exact List.mem_append_right _ List.mem_cons_self
          rw [← Option.some.inj hget, hkey]
          exact h.raised _ hraised
        · rw [if_neg hkey] at hget
          exact h.queue entry (OrderedMap.mem_entries_iff.mpr hget)
      · exact h.serial
      · exact h.runtime
  | flush hwatcher hsize =>
      constructor
      · exact h.raised
      · intro entry hin
        cases hin
      · intro task hin
        rcases List.mem_append.mp hin with hold | hnew
        · exact h.serial task hold
        · rw [List.mem_singleton.mp hnew]
          intro event hevent
          rcases List.mem_map.mp hevent with ⟨entry, hentry, heq⟩
          rw [← heq]
          exact h.queue entry hentry
      · apply h.runtime.of_fewer
        · exact Runtime.Moves.of_same working_shared h.runtime.sound rfl rfl rfl
            (fun _ hmem => hmem)
        · exact fun _ _ hget => hget
        · rfl
  | initKernel hnew =>
      apply h.advance _ (initKernel_orderly hembeds h.runtime hnew)
      have hsame : (w.runtime.initKernel config).serial = w.runtime.serial :=
        nextPlace_serial config _ _ config.places
      rw [hsame]
      exact h.serial
  | scanned ep hosted rest hinit =>
      have hroot : OfNames [] := ⟨[], (fun name hmem => by cases hmem), rfl⟩
      have hfiles : forall file, file ∈ w.disk.scan strict hosted [] -> BelowRoot file.1 :=
        fun file hmem => scan_below hroot hmem
      have hscanned := scanned_orderly h.runtime hinit hfiles
      exact ⟨h.raised, h.queue, h.serial, hscanned⟩
  | originated ep hosted rest files hinit =>
      apply h.advance _ (originated_orderly hembeds h.runtime hinit)
      rw [originated_serial]
      exact h.serial
  | published ep rest hinit hfailed hpending =>
      have hunderway : w.runtime.init.Underway := by
        rw [hinit]
        exact trivial
      have hnone : forall id task ep, w.runtime.tasks.get id = some task ->
          task.role ≠ Role.entry ep := by
        intro id task ep' hget hentry
        apply hpending
        refine ⟨id, task, hget, ?_⟩
        rw [hentry]
        exact trivial
      apply h.advance _ (nextPlace_orderly hembeds h.runtime hunderway hnone ep rest)
      rw [nextPlace_serial]
      exact h.serial
  | failed ep rest hinit hfailed =>
      exact h.advance h.serial (failInit_orderly h.runtime w.runtime.kernel)
  | resume id task answer hget hanswer =>
      apply h.advance _ (resume_orderly h.runtime hget (hhosts.regular hanswer))
      rw [resume_serial]
      exact h.serial
  | fire hosted key hget =>
      apply h.advance
      · intro task hmem
        rcases List.mem_append.mp hmem with hold | hnew
        · exact h.serial task hold
        · rw [List.mem_singleton.mp hnew]
          apply h.runtime.tidy.rechecks hosted.name key
          show (OrderedMap.get _ _).isSome = true
          rw [hget]
          rfl
      · apply h.runtime.of_fewer
        · exact Runtime.Moves.fire working_shared h.runtime.sound (working_handles hosted) key
        · exact fun _ _ hget => hget
        · rfl
  | serial task rest hrunning hserial =>
      have htask : task.Regular config := by
        apply h.serial
        rw [hserial]
        exact List.mem_cons_self
      apply h.advance _ (serialTurn_orderly h.runtime hrunning htask rest)
      intro other hmem
      rw [serialTurn_serial] at hmem
      apply h.serial
      rw [hserial]
      exact List.mem_cons_of_mem task hmem
  | endEpoch ep hrunning hpending =>
      exact h.advance h.serial (endEpoch_orderly h.runtime hrunning hpending)

/-- A run over disks that have no file where a place has its root. -/
inductive World.Reaches (config : Config) (strict : Bool) : World -> Prop where
  | new (d : Disk) : d.Hosts config -> World.Reaches config strict (World.new d)
  | step : World.Reaches config strict w -> World.Step config strict w turn w' ->
      w'.disk.Hosts config -> World.Reaches config strict w'

theorem World.Reaches.hosts {w : World} (h : World.Reaches config strict w) :
    w.disk.Hosts config := by
  cases h with
  | new d hhosts => exact hhosts
  | step _ _ hhosts => exact hhosts

theorem World.Reaches.orderly (hembeds : config.Embeds) {w : World}
    (h : World.Reaches config strict w) : w.Orderly config := by
  induction h with
  | new d =>
      constructor
      · intro event hmem
        cases hmem
      · intro entry hmem
        cases hmem
      · intro events hmem
        cases hmem
      · constructor
        · exact Runtime.Sound.of_empty (fun _ => rfl) rfl
        · constructor
          · intro name source hget
            cases hget
          · intro name key hhas
            cases hhas
        · intro ep hosted rest files hinit
          cases hinit
        · intro hstate
          rcases hstate with hinitializing | hready
          · cases hinitializing
          · cases hready
        · intro hunderway
          exact hunderway.elim
        · exact fun _ _ => rfl
        · intro id task ep hget
          cases hget
        · intro id task ep hget
          cases hget
        · intro id task hget
          cases hget
        · intro id task hget
          cases hget
  | step hreaches hstep _ ih => exact ih.step hembeds hreaches.hosts hstep

end SharedMemoryFs.Lifecycle
