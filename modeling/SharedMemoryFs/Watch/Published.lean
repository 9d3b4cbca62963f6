import SharedMemoryFs.Watch.Links

/-!
# What a link can publish

Over every run of a watched disk: the scanner never follows a link it should not, but
an epoch does, where it refreshes a path or rescans a directory by a stat that follows
links.
-/

namespace SharedMemoryFs.Lifecycle

open Foundation

variable {config : Config} {strict : Bool}

/-!
# Runs
-/

/-- A source of the place is in the index or in its projection. -/
def Kernel.Publishes (k : Kernel) (hosted : HostedPlace) (key : Key) : Prop :=
  (k.files hosted.name).hasSource key = true ∨
    exists index, k.cache = some index ∧ (index hosted.name).hasSource key = true

/-- Every published source of a place on disk was read, each time from a disk where the
scanner admits it. -/
def World.Clean (config : Config) (strict : Bool) (w : World) : Prop :=
  forall hosted key, hosted ∈ config.places -> hosted.fromDisk = true ->
    w.runtime.kernel.Publishes hosted key ->
    (exists d, (d, hosted.name, key) ∈ w.reads) ∧
      forall d, (d, hosted.name, key) ∈ w.reads -> d.Admits strict hosted key

/-- A run from the initial scan on, with the turns of the watch queue it took. -/
inductive World.Run (config : Config) (strict : Bool) : World -> List (World × Serial) -> Prop
    where
  | new (d : Disk) : World.Run config strict (World.new d) []
  | step : World.Run config strict w turns -> World.Step config strict w none w' ->
      World.Run config strict w' turns
  | turn : World.Run config strict w turns -> World.Step config strict w (some task) w' ->
      World.Run config strict w' ((w, task) :: turns)

theorem run_kept {w : World} {turns : List (World × Serial)}
    (hrun : World.Run config strict w turns)
    (hright : forall before task, (before, task) ∈ turns ->
      task.Rightly strict before.disk before.runtime.kernel) : w.Kept config strict := by
  induction hrun with
  | new d => exact new_kept d
  | step hrun hstep ih =>
      apply step_keeps hstep _ (ih hright)
      intro task htask
      cases htask
  | @turn w turns task w' hrun hstep ih =>
      apply step_keeps hstep _ (ih (fun before task hmem => hright before task
        (List.mem_cons_of_mem _ hmem)))
      intro other hother
      cases hother
      exact hright w task List.mem_cons_self

theorem kept_clean {w : World} (h : w.Kept config strict) : w.Clean config strict := by
  intro hosted key hmem hdisk hpublished
  constructor
  · apply h.logged
    rcases hpublished with hfiles | ⟨index, hcache, hindex⟩
    · exact h.runtime.recorded.files hosted.name key hfiles
    · exact h.runtime.recorded.index index hcache hosted.name key hindex
  · intro d hread
    exact h.fine d _ hread hosted hmem hdisk rfl

/-- No content is published through a link the scanner would refuse, as long as every
epoch and recheck finds on the disk of its turn only what the scanner admits. -/
theorem published_admitted {w : World} {turns : List (World × Serial)}
    (hrun : World.Run config strict w turns)
    (hright : forall before task, (before, task) ∈ turns ->
      task.Rightly strict before.disk before.runtime.kernel) : w.Clean config strict :=
  kept_clean (run_kept hrun hright)

/-!
# A link that is followed

A strict sandbox watches a directory that holds nothing but a link to a file outside.
The scan passes it over; the event for it does not.
-/

def staticPlace : HostedPlace :=
  { place :=
      { config :=
          { name := "static", maxFileSize := 8, require := none, fs := none, prepare := [] }
        root := "/app/static"
        fileExt := fun _ => ""
        registered := fun _ => none
        compileRequire := fun _ _ => none
        compileScript := fun _ _ => none }
    provider := Provider.map
    virtual := false
    scanExt := none }

def staticConfig : Config :=
  { places := [staticPlace]
    distinct := List.pairwise_singleton _ staticPlace
    concurrency := 4
    watchRequired := true
    assets := fun _ => none }

def linkedDisk : Disk :=
  { root := Node.directory
      [("app".toList, Node.directory [("static".toList, Node.directory
          [("leak".toList, Node.link "/etc/secret".toList)])]),
        ("etc".toList, Node.directory [("secret".toList, Node.file ⟨[83], 7⟩)])]
    proper := by decide }

namespace World

/-- Resume the first function in flight. -/
def resumeFirst (strict : Bool) (w : World) : World :=
  match w.runtime.tasks.entries.head? with
  | none => w
  | some entry =>
      w.advance (w.runtime.resume entry.1 entry.2 (w.disk.answer strict entry.2.question))

theorem resumeFirst_step {w : World} (h : w.runtime.tasks.size ≠ 0) :
    World.Step config strict w none (w.resumeFirst strict) := by
  unfold resumeFirst
  cases hhead : w.runtime.tasks.entries.head? with
  | none =>
      have hnil := List.head?_eq_none_iff.mp hhead
      exact absurd (congrArg List.length hnil) h
  | some entry =>
      have hget := OrderedMap.mem_entries_iff.mp (List.mem_of_mem_head? hhead)
      exact Step.resume entry.1 entry.2 _ hget (w.disk.answer_answers strict _)

theorem resumeFirst_disk (strict : Bool) (w : World) : (w.resumeFirst strict).disk = w.disk := by
  unfold resumeFirst
  cases w.runtime.tasks.entries.head? with
  | none => rfl
  | some entry => rfl

/-- The first source that is taken is read from the disk of that step. -/
theorem resumeFirst_reads {w : World} {source : PlaceName × Key}
    (hempty : w.runtime.kernel.stored = [])
    (h : source ∈ (w.resumeFirst strict).runtime.kernel.stored) :
    (w.disk, source) ∈ (w.resumeFirst strict).reads := by
  unfold resumeFirst at h ⊢
  cases hhead : w.runtime.tasks.entries.head? with
  | none =>
      rw [hhead] at h
      dsimp only at h
      rw [hempty] at h
      cases h
  | some entry =>
      rw [hhead] at h
      unfold advance
      dsimp only
      rw [hempty, List.length_nil, Nat.sub_zero, List.take_length]
      exact List.mem_append_left _ (List.mem_map.mpr ⟨source, h, rfl⟩)

def scanning : World := (new linkedDisk).advance ((new linkedDisk).runtime.initKernel staticConfig)

def scanned : World :=
  scanning.advance (scanning.runtime.scanned 0 staticPlace []
    (linkedDisk.scan true staticPlace []))

def publishing : World :=
  scanned.advance (scanned.runtime.originated staticConfig 0 staticPlace []
    (some (linkedDisk.scan true staticPlace [])))

/-- The kernel is ready, and watches the directory. -/
def watched : World := publishing.advance (publishing.runtime.nextPlace staticConfig 0 [])

/-- The watcher has one event of the place to tell. -/
def alerted (key : Key) (event : Change) : World :=
  { watched with queue := watched.queue.set (staticPlace.name, key) (staticPlace, event) }

/-- The epoch of that event has its turn. -/
def handling (key : Key) (event : Change) : World :=
  (alerted key event).startEpoch.advance
    ((alerted key event).startEpoch.runtime.serialTurn
      (Serial.epoch (alerted key event).events) [])

theorem watched_run : World.Run staticConfig true watched [] := by
  have hscanning : World.Run staticConfig true scanning [] :=
    (Run.new linkedDisk).step (Step.initKernel rfl)
  have hscanned : World.Run staticConfig true scanned [] :=
    hscanning.step (Step.scanned 0 staticPlace [] rfl)
  have hpublishing : World.Run staticConfig true publishing [] :=
    hscanned.step (Step.originated 0 staticPlace [] _ rfl)
  apply hpublishing.step
  apply Step.published 0 [] rfl rfl
  intro hpending
  rcases hpending with ⟨id, task, hget, _⟩
  cases hget

theorem handling_run (names : List PosixPath.Text) (event : Change)
    (hplain : forall name, name ∈ names -> PosixPath.Plain name)
    (hclassify : linkedDisk.classify (staticPlace.pathOf (PosixPath.text names)) = some event) :
    World.Run staticConfig true (handling (PosixPath.text names) event)
      [((alerted (PosixPath.text names) event).startEpoch,
        Serial.epoch (alerted (PosixPath.text names) event).events)] := by
  have hraised : World.Run staticConfig true
      { watched with raised := [(staticPlace, PosixPath.text names, event)] } [] :=
    watched_run.step (Step.raise staticPlace names event (by decide +kernel) List.mem_cons_self
      (by decide +kernel) hplain hclassify)
  have hqueued : World.Run staticConfig true (alerted (PosixPath.text names) event) [] :=
    hraised.step (Step.enqueue [] [] staticPlace (PosixPath.text names) event rfl)
  have hwatcher : (alerted (PosixPath.text names) event).runtime.kernel.watcher = true := by
    show watched.runtime.kernel.watcher = true
    decide +kernel
  have hflushed : World.Run staticConfig true (alerted (PosixPath.text names) event).startEpoch [] :=
    hqueued.step (Step.flush hwatcher (Nat.succ_ne_zero 0))
  exact hflushed.turn (Step.serial _ [] rfl rfl)

end World

def leak : Key := PosixPath.text ["leak".toList]

/-- What the event for the link leads to. -/
def leaked : World :=
  (((World.handling leak Change.change).resumeFirst true).resumeFirst true).resumeFirst true

theorem leak_refused : ¬ linkedDisk.Admits true staticPlace leak := by
  intro hadmits
  rcases hadmits with ⟨base, names, node, hbase, hplain, hkey, hget, hfile⟩
  have hroot : linkedDisk.locate staticPlace.place.root.toList =
      Except.ok ["app".toList, "static".toList] := by
    decide +kernel
  cases hroot.symm.trans hbase
  have hnames : [] :: names = [[], "leak".toList] := by
    rw [← PosixPath.split_text (fun name hmem => (hplain name hmem).2.2.2), ← hkey]
    decide +kernel
  cases hnames
  cases hget
  cases hfile rfl

/-- The bytes of a file outside are published under the link, in a strict sandbox. -/
theorem link_published :
    (exists turns, World.Run staticConfig true leaked turns) ∧
      leaked.runtime.kernel.Publishes staticPlace leak ∧
        (linkedDisk, staticPlace.name, leak) ∈ leaked.reads ∧
          ¬ leaked.Clean staticConfig true := by
  have hrun := World.handling_run ["leak".toList] Change.change (by decide) (by decide +kernel)
  have hfirst : World.Run staticConfig true ((World.handling leak Change.change).resumeFirst true) _ :=
    hrun.step (World.resumeFirst_step (by decide +kernel))
  have hsecond : World.Run staticConfig true
      (((World.handling leak Change.change).resumeFirst true).resumeFirst true) _ :=
    hfirst.step (World.resumeFirst_step (by decide +kernel))
  have hpublished : leaked.runtime.kernel.Publishes staticPlace leak := by
    left
    decide +kernel
  have hread : (linkedDisk, staticPlace.name, leak) ∈ leaked.reads := by
    have hdisk : (((World.handling leak Change.change).resumeFirst true).resumeFirst true).disk =
        linkedDisk := by
      rw [World.resumeFirst_disk, World.resumeFirst_disk]
      rfl
    rw [← hdisk]
    exact World.resumeFirst_reads (by decide +kernel) (by decide +kernel)
  refine ⟨⟨_, hsecond.step (World.resumeFirst_step (by decide +kernel))⟩, hpublished, hread, ?_⟩
  intro hclean
  exact leak_refused
    ((hclean staticPlace leak List.mem_cons_self rfl hpublished).2 linkedDisk hread)

/-- An event of the place root is handled as it should be. -/
theorem published_admitted_root :
    World.Clean staticConfig true (World.handling (PosixPath.text []) Change.scan) := by
  apply published_admitted (World.handling_run [] Change.scan (by decide) (by decide +kernel))
  intro before task hmem
  cases List.mem_singleton.mp hmem
  intro event hevent _
  have hroot : event ∈ [(staticPlace, ([] : Key), Change.scan)] := hevent
  rw [List.mem_singleton.mp hroot]
  intro found hfound _
  exact Disk.scan_root_admits hfound

end SharedMemoryFs.Lifecycle
