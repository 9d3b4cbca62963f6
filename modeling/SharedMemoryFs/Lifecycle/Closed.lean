import SharedMemoryFs.Lifecycle.Settling

/-!
# What outlives close

Whatever is in flight when {lit}`close` runs leaves the closed kernel alone, but for
one step of {lit}`initialize`: after its last place it asks no more whether the kernel
was closed, makes it ready and may start its watcher.
-/

namespace SharedMemoryFs.Lifecycle

open Foundation

def emptyPlace : HostedPlace :=
  { place :=
      { config :=
          { name := "static", maxFileSize := 8, require := none, fs := none, prepare := [] }
        root := "/app/static"
        fileExt := fun _ => ""
        registered := fun _ => none
        compileRequire := fun _ _ => none
        compileScript := fun _ _ => none }
    provider := Provider.sab
    virtual := false
    scanExt := none }

def emptyConfig : Config :=
  { places := [emptyPlace]
    distinct := List.pairwise_singleton _ emptyPlace
    concurrency := 4
    watchRequired := true
    assets := fun _ => none }

/-- The kernel while it scans the directory. -/
def scanningRuntime : Runtime := Runtime.new.initKernel emptyConfig

/-- The same, closed meanwhile, and then resumed up to its last place. -/
def overtakenRuntime : Runtime :=
  (scanningRuntime.close.scanned 0 emptyPlace [] []).originated emptyConfig 0 emptyPlace []
    (some [])

def reopenedRuntime : Runtime := overtakenRuntime.nextPlace emptyConfig 0 []

def reopeningSteps : List (Label × Runtime) :=
  [(Label.own, scanningRuntime.close.scanned 0 emptyPlace [] []),
    (Label.place, overtakenRuntime), (Label.place, reopenedRuntime)]

theorem scanning_reachable : Reachable emptyConfig scanningRuntime.close :=
  (Reachable.new.step (Step.initKernel rfl)).step Step.close

theorem reopening_run : Run emptyConfig scanningRuntime.close reopeningSteps := by
  apply Run.cons (Step.scanned 0 emptyPlace [] [] rfl)
  apply Run.cons (Step.originated 0 emptyPlace [] (some []) rfl)
  refine Run.cons (Step.published 0 [] rfl rfl ?_) Run.nil
  rintro ⟨id, task, hget, _⟩
  cases hget

end SharedMemoryFs.Lifecycle
