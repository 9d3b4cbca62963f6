import SharedMemoryFs.Routing.NativeCalls

/-!
# Guarded symbolic links

{lit}`guardOp` routes the target of a link as it is given, from the current directory,
while the link names what the target is from the directory of the link itself.
-/

namespace SharedMemoryFs

open Foundation

namespace FsPatch

variable (patch : FsPatch)

/-- The directory that will hold the link. -/
def linkDirectory (path : FilePath) : List PosixPath.Text :=
  (PosixPath.resolve patch.router.registry.cwd path).dropLast

/-- The path a link names: its target, from the directory of the link. -/
def designated (target path : FilePath) : FilePath :=
  if target.head? = some PosixPath.separator then target
  else PosixPath.text (patch.linkDirectory path) ++ PosixPath.separator :: target

/-- A link that the patch lets through names nothing hidden. -/
def RoutesLink (sync : Bool) (target path : FilePath) : Prop :=
  passes (patch.core sync
      (Call.symlink (PathArg.string target) (PathArg.string path))) = true ->
    patch.hides (PathArg.string (patch.designated target path)) = false

/-- A relative target that can be read from the current directory, for a link that may
be written, and that is hidden from the directory of the link. -/
structure Strays (target path : FilePath) : Prop where
  relative : target.head? ≠ some PosixPath.separator
  readable : patch.guardsRead (PathArg.string target) = false
  written : patch.router.mutate path = Route.passthrough
  hidden : patch.hides (PathArg.string (patch.designated target path)) = true

variable {patch} {target path : FilePath} {sync : Bool}

/-- What the guards let through, whatever the form of the call. -/
theorem symlink_passes : passes (patch.core sync
      (Call.symlink (PathArg.string target) (PathArg.string path))) = true <->
    patch.guardsRead (PathArg.string target) = false ∧
      patch.router.mutate path = Route.passthrough := by
  constructor
  · intro h
    rcases guardRead_passes h with ⟨hguard, hread⟩
    exact ⟨hread.resolve_left (fun hunseen => by cases hunseen),
      guardMutation_passes rfl hguard⟩
  · intro h
    show passes (patch.guardRead (PathArg.string target) Syscall.symlink
      (patch.guardMutation (PathArg.string path) Syscall.symlink native)) = true
    rw [guardRead_native (Or.inr h.1)]
    unfold guardMutation mutationRoute pathOf
    dsimp only
    rw [h.2]
    rfl

/-- A readable path is not hidden. -/
theorem hides_of_readable {p : PathArg} (h : patch.guardsRead p = false) :
    patch.hides p = false := by
  unfold guardsRead at h
  unfold hides
  cases hroute : patch.router.read p.denotes with
  | deny code =>
      rw [hroute] at h
      cases h
  | _ => rfl

/-- The same names are reached from the directory of the link as from the current
directory, when the two are one. -/
theorem read_designated (htarget : target ≠ [])
    (hplain : forall name, name ∈ patch.router.registry.cwd -> PosixPath.Plain name)
    (hhere : patch.linkDirectory path = patch.router.registry.cwd) :
    patch.router.read (patch.designated target path) = patch.router.read target := by
  by_cases habsolute : target.head? = some PosixPath.separator
  · unfold designated
    rw [if_pos habsolute]
  · have hlong : patch.designated target path =
        PosixPath.text patch.router.registry.cwd ++ PosixPath.separator :: target := by
      unfold designated
      rw [if_neg habsolute, hhere]
    have hhead : (PosixPath.text patch.router.registry.cwd ++
        PosixPath.separator :: target).head? = some PosixPath.separator := by
      cases patch.router.registry.cwd with
      | nil => rfl
      | cons first rest => rfl
    have hresolve : PosixPath.resolve patch.router.registry.cwd (patch.designated target path) =
        PosixPath.resolve patch.router.registry.cwd target := by
      rw [hlong]
      unfold PosixPath.resolve
      rw [if_pos hhead, if_neg habsolute, PosixPath.split_append_separator, List.foldl_append,
        PosixPath.split_text (fun name hname => (hplain name hname).2.2.2), List.foldl_cons]
      have hfold : patch.router.registry.cwd.foldl PosixPath.enter (PosixPath.enter [] []) =
          patch.router.registry.cwd :=
        (PosixPath.foldl_enter hplain []).trans (List.nil_append _)
      rw [hfold]
    have hlast : namesDirectory (patch.designated target path) = namesDirectory target := by
      unfold namesDirectory
      rw [hlong, List.getLast?_append_of_ne_nil _ (List.cons_ne_nil _ _),
        List.getLast?_cons_of_ne_nil htarget]
    have hroute : patch.router.registry.route (patch.designated target path) =
        patch.router.registry.route target := by
      unfold PlaceRegistry.route
      rw [hresolve]
    unfold FsRouter.read FsRouter.served
    rw [hroute, hlast]

/-- Only a link in another directory strays. -/
theorem Strays.elsewhere (h : patch.Strays target path) (htarget : target ≠ [])
    (hplain : forall name, name ∈ patch.router.registry.cwd -> PosixPath.Plain name) :
    patch.linkDirectory path ≠ patch.router.registry.cwd := by
  intro hhere
  have hhidden := h.hidden
  unfold hides at hhidden
  rw [show (PathArg.string (patch.designated target path)).denotes =
    patch.designated target path from rfl, read_designated htarget hplain hhere] at hhidden
  have hreadable := hides_of_readable h.readable
  unfold hides at hreadable
  rw [show (PathArg.string target).denotes = target from rfl, hhidden] at hreadable
  cases hreadable

/-!
A process in {lit}`/home/me` links {lit}`/tmp/l` to {lit}`../srv/x`, which is nothing there
and a hidden file from {lit}`/tmp`.
-/

def homePatch : FsPatch :=
  { router :=
      { registry :=
          { appRoot := ["srv".toList]
            cwd := ["home".toList, "me".toList]
            places := [readOnlyPlace] }
        strict := true
        fileExt := demoExt }
    disk := fun _ => none
    diskDirectory := fun _ => false
    renames := fun _ _ _ => Except.ok () }

end FsPatch

end SharedMemoryFs
