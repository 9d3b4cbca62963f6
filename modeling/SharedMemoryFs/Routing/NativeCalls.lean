import SharedMemoryFs.Routing.FsPatch

/-!
# Calls that reach the original functions

What holds of the path arguments of a call when its core hands them to the
original {lit}`node:fs`: what it writes was routed as a mutation, and what it reads
is not hidden.
-/

namespace SharedMemoryFs

open Foundation

/-- The patch sees no path in this argument. -/
def PathArg.unseen (p : PathArg) : Bool := (pathOf p).isNone

def FileArg.paths : FileArg -> List PathArg
  | FileArg.path p => [p]
  | FileArg.descriptor _ => []

namespace Call

/-- Every path argument. -/
def paths : Call -> List PathArg
  | Call.readFile p _ => p.paths
  | Call.stat p => [p]
  | Call.lstat p => [p]
  | Call.access p _ => [p]
  | Call.realpath p => [p]
  | Call.readdir p _ => [p]
  | Call.opendir p _ => [p]
  | Call.openFile p _ => [p]
  | Call.writeFile p => p.paths
  | Call.appendFile p => p.paths
  | Call.unlink p => [p]
  | Call.mkdir p => [p]
  | Call.rm p _ => [p]
  | Call.rename src dest => [src, dest]
  | Call.copyFile src dest => [src, dest]
  | Call.cp src dest _ => [src, dest]
  | Call.rmdir p _ => [p]
  | Call.link src dest => [src, dest]
  | Call.readlink p => [p]
  | Call.statfs p => [p]
  | Call.guarded _ p => p.paths
  | Call.symlink target path => [target, path]

/-- The path arguments the original function may create, truncate, modify, rename
or remove. -/
def written : Call -> List PathArg
  | Call.readFile p writes => if writes then p.paths else []
  | Call.stat _ => []
  | Call.lstat _ => []
  | Call.access _ _ => []
  | Call.realpath _ => []
  | Call.readdir _ _ => []
  | Call.opendir _ _ => []
  | Call.openFile p writes => if writes then [p] else []
  | Call.writeFile p => p.paths
  | Call.appendFile p => p.paths
  | Call.unlink p => [p]
  | Call.mkdir p => [p]
  | Call.rm p _ => [p]
  | Call.rename src dest => [src, dest]
  | Call.copyFile _ dest => [dest]
  | Call.cp _ dest _ => [dest]
  | Call.rmdir p _ => [p]
  | Call.link _ dest => [dest]
  | Call.readlink _ => []
  | Call.statfs _ => []
  | Call.guarded _ p => p.paths
  | Call.symlink _ path => [path]

/-- The path arguments the original function reads, lists, opens or takes as the
source of a copy, a link or a rename. -/
def sources : Call -> List PathArg
  | Call.readFile p _ => p.paths
  | Call.stat p => [p]
  | Call.lstat p => [p]
  | Call.access p _ => [p]
  | Call.realpath p => [p]
  | Call.readdir p _ => [p]
  | Call.opendir p _ => [p]
  | Call.openFile p _ => [p]
  | Call.writeFile _ => []
  | Call.appendFile _ => []
  | Call.unlink _ => []
  | Call.mkdir _ => []
  | Call.rm _ _ => []
  | Call.rename src _ => [src]
  | Call.copyFile src _ => [src]
  | Call.cp src _ _ => [src]
  | Call.rmdir _ _ => []
  | Call.link src _ => [src]
  | Call.readlink p => [p]
  | Call.statfs p => [p]
  | Call.guarded _ _ => []
  | Call.symlink _ _ => []

end Call

namespace Probe

def sources : Probe -> List PathArg
  | Probe.existsSync p => [p]
  | Probe.createReadStream p => [p]
  | Probe.watch p _ => [p]
  | Probe.watchFile p => [p]

end Probe

/-- A call in one of its forms, or one of the functions patched apart. -/
inductive Invocation where
  | call (sync : Bool) (called : Call)
  | probe (probed : Probe)

namespace Invocation

def sources : Invocation -> List PathArg
  | Invocation.call _ called => called.sources
  | Invocation.probe probed => probed.sources

def paths : Invocation -> List PathArg
  | Invocation.call _ called => called.paths
  | Invocation.probe probed => probed.sources

end Invocation

namespace FsPatch

/-- The original function runs. -/
def passes : Core -> Bool
  | Except.ok CoreAnswer.native => true
  | _ => false

/-- The call is refused, or answers that there is nothing. -/
def withholds : Core -> Bool
  | Except.error _ => true
  | Except.ok (CoreAnswer.answered false) => true
  | _ => false

theorem passes_native : passes native = true := rfl

theorem passes_refuse (code : ErrorCode) (syscall : Syscall) (filePath : FilePath)
    (detail : Option String) : passes (refuse code syscall filePath detail) ≠ true :=
  fun h => by cases h

theorem withholds_native : withholds native ≠ true := fun h => by cases h

theorem pathOf_of_seen {p : PathArg} (h : p.unseen = false) : pathOf p = some p.denotes := by
  cases p with
  | bytes path => cases h
  | _ => rfl

theorem pathOf_of_unseen {p : PathArg} (h : p.unseen = true) : pathOf p = none :=
  Option.isNone_iff_eq_none.mp h

variable {patch : FsPatch}

/-!
# Routed arguments
-/

theorem mutationRoute_unseen {p : PathArg} (h : p.unseen = true) (syscall : Syscall)
    (sync : Bool) (core : Core) (serve : FilePath -> RoutedPlace -> Key -> Core) :
    patch.mutationRoute p syscall sync core serve = core := by
  unfold mutationRoute
  rw [pathOf_of_unseen h]

/-- What the original function is handed, the router passed as a mutation. -/
theorem mutationRoute_passes {p : PathArg} (hseen : p.unseen = false) {syscall : Syscall}
    {sync : Bool} {core : Core} {serve : FilePath -> RoutedPlace -> Key -> Core}
    (hserve : forall filePath place key, passes (serve filePath place key) ≠ true)
    (h : passes (patch.mutationRoute p syscall sync core serve) = true) :
    patch.router.mutate p.denotes = Route.passthrough := by
  unfold mutationRoute at h
  rw [pathOf_of_seen hseen] at h
  dsimp only at h
  rcases patch.router.mutate_cases p.denotes with hpass | ⟨code, hdeny⟩ | ⟨place, key, hstore, _⟩
  · exact hpass
  · rw [hdeny] at h
    exact absurd h (passes_refuse code syscall p.denotes none)
  · rw [hstore] at h
    dsimp only at h
    by_cases hasync : sync = true ∧ needsAsync place key = true
    · rw [if_pos hasync] at h
      exact absurd h (passes_refuse _ _ _ _)
    · rw [if_neg hasync] at h
      exact absurd h (hserve _ _ _)

theorem readRoute_unseen {p : PathArg} (h : p.unseen = true) (syscall : Syscall)
    (listing : Bool) (core : Core) (serve : FilePath -> Route -> Core) :
    patch.readRoute p syscall listing core serve = core := by
  unfold readRoute
  rw [pathOf_of_unseen h]

/-- A hidden path is refused. -/
theorem readRoute_deny {p : PathArg} (hseen : p.unseen = false) {code : ErrorCode}
    (hdeny : patch.router.read p.denotes = Route.deny code) (syscall : Syscall)
    (listing : Bool) (core : Core) (serve : FilePath -> Route -> Core) :
    patch.readRoute p syscall listing core serve = refuse code syscall p.denotes none := by
  unfold readRoute
  rw [pathOf_of_seen hseen]
  dsimp only
  rw [hdeny]

theorem walkGuard_unseen {p : PathArg} (h : p.unseen = true) (syscall : Syscall)
    (walks : Bool) (core : Core) : patch.walkGuard p syscall walks core = core := by
  unfold walkGuard
  rw [pathOf_of_unseen h]

theorem guardMutation_unseen {p : PathArg} (h : p.unseen = true) (syscall : Syscall)
    (core : Core) : patch.guardMutation p syscall core = core :=
  mutationRoute_unseen h syscall false core _

theorem guardMutation_passes {p : PathArg} (hseen : p.unseen = false) {syscall : Syscall}
    {core : Core} (h : passes (patch.guardMutation p syscall core) = true) :
    patch.router.mutate p.denotes = Route.passthrough :=
  mutationRoute_passes hseen (fun filePath _ _ => passes_refuse _ syscall filePath _) h

theorem mutation_passes {p : PathArg} (hseen : p.unseen = false) {syscall : Syscall}
    {sync : Bool} (h : passes (patch.mutation p syscall sync) = true) :
    patch.router.mutate p.denotes = Route.passthrough :=
  mutationRoute_passes hseen (fun _ _ _ => fun h => by cases h) h

/-!
# Operations on two paths
-/

theorem copyOf_unseen {src dest : PathArg} (h : src.unseen = true ∨ dest.unseen = true)
    (syscall : Syscall) (recursive : Bool) : patch.copyOf src dest syscall recursive = native := by
  unfold copyOf
  rcases h with hsrc | hdest
  · rw [pathOf_of_unseen hsrc]
  · rw [pathOf_of_unseen hdest]
    cases pathOf src with
    | none => rfl
    | some source => rfl

theorem link_unseen {src dest : PathArg} (h : src.unseen = true ∨ dest.unseen = true) :
    patch.link src dest = native := by
  unfold link
  rcases h with hsrc | hdest
  · rw [pathOf_of_unseen hsrc]
  · rw [pathOf_of_unseen hdest]
    cases pathOf src with
    | none => rfl
    | some source => rfl

theorem rename_unseen {src dest : PathArg} (h : src.unseen = true ∨ dest.unseen = true)
    (sync : Bool) : patch.rename src dest sync = native := by
  unfold rename
  rcases h with hsrc | hdest
  · rw [pathOf_of_unseen hsrc]
  · rw [pathOf_of_unseen hdest]
    cases pathOf src with
    | none => rfl
    | some source => rfl

theorem passes_error (refused : Refused) : passes (Except.error refused) ≠ true :=
  fun h => by cases h

/-- A copy runs natively only into a destination the router passed. -/
theorem copyOf_passes {src dest : PathArg} (hsrc : src.unseen = false)
    (hdest : dest.unseen = false) {syscall : Syscall} {recursive : Bool}
    (h : passes (patch.copyOf src dest syscall recursive) = true) :
    patch.router.mutate dest.denotes = Route.passthrough := by
  unfold copyOf at h
  rw [pathOf_of_seen hsrc, pathOf_of_seen hdest] at h
  dsimp only at h
  rcases patch.router.mutate_cases dest.denotes with
    hpass | ⟨code, hdeny⟩ | ⟨place, key, hstore, hindexed⟩
  · exact hpass
  · rw [hdeny] at h
    cases hcopy : patch.router.copy src.denotes recursive with
    | _ =>
        rw [hcopy] at h
        exact absurd h (passes_error _)
  · rw [hstore] at h
    cases hcopy : patch.router.copy src.denotes recursive with
    | deny code =>
        rw [hcopy] at h
        exact absurd h (passes_error _)
    | unsupported =>
        rw [hcopy] at h
        exact absurd h (passes_error _)
    | _ =>
        rw [hcopy] at h
        dsimp only at h
        cases recursive with
        | false => cases h
        | true =>
            rw [if_pos rfl] at h
            have hmanaged := patch.router.copy_recursive_indexed hindexed
            cases hinto : patch.router.copy dest.denotes true with
            | passthrough => exact absurd hinto hmanaged
            | _ =>
                rw [hinto] at h
                exact absurd h (passes_error _)

theorem link_passes {src dest : PathArg} (hsrc : src.unseen = false)
    (hdest : dest.unseen = false) (h : passes (patch.link src dest) = true) :
    patch.router.mutate dest.denotes = Route.passthrough := by
  unfold link at h
  rw [pathOf_of_seen hsrc, pathOf_of_seen hdest] at h
  dsimp only at h
  cases hlink : patch.router.link src.denotes dest.denotes with
  | passthrough => exact patch.router.link_passthrough hlink
  | _ =>
      rw [hlink] at h
      exact absurd h (passes_error _)

theorem renameStored_passes (place : RoutedPlace) (source target : Key) :
    passes (patch.renameStored place source target) ≠ true := by
  unfold renameStored
  cases patch.renames place source target with
  | error refusal => exact passes_error _
  | ok moved => exact fun h => by cases h

/-- A rename runs natively only between two paths the router passed. -/
theorem rename_passes {src dest : PathArg} (hsrc : src.unseen = false)
    (hdest : dest.unseen = false) {sync : Bool}
    (h : passes (patch.rename src dest sync) = true) :
    patch.router.mutate src.denotes = Route.passthrough ∧
      patch.router.mutate dest.denotes = Route.passthrough := by
  unfold rename at h
  rw [pathOf_of_seen hsrc, pathOf_of_seen hdest] at h
  dsimp only at h
  rcases patch.router.mutate_cases src.denotes with
    hfrom | ⟨code, hfrom⟩ | ⟨place, key, hfrom, _⟩
  · rw [hfrom] at h
    dsimp only at h
    rw [if_neg (fun hasync => by cases hasync)] at h
    rcases patch.router.mutate_cases dest.denotes with
      hinto | ⟨code, hinto⟩ | ⟨place, key, hinto, _⟩
    · exact ⟨hfrom, hinto⟩
    · rw [hinto] at h
      exact absurd h (passes_error _)
    · rw [hinto] at h
      dsimp only at h
      split_ifs at h
      all_goals exact absurd h (passes_error _)
  · rw [hfrom] at h
    exact absurd h (passes_error _)
  · rw [hfrom] at h
    dsimp only at h
    rcases patch.router.mutate_cases dest.denotes with
      hinto | ⟨code, hinto⟩ | ⟨place', key', hinto, _⟩
    · rw [hinto] at h
      dsimp only at h
      split_ifs at h
      all_goals exact absurd h (passes_error _)
    · rw [hinto] at h
      dsimp only at h
      split_ifs at h
      all_goals exact absurd h (passes_error _)
    · rw [hinto] at h
      dsimp only at h
      split_ifs at h
      all_goals first
        | exact absurd h (passes_error _)
        | exact absurd h (renameStored_passes _ _ _)

/-!
# Native writes
-/

variable (patch)

/-- The read routing hands the path to the original function. -/
def readsNatively (p : PathArg) : Bool :=
  match patch.router.read p.denotes with
  | Route.passthrough => true
  | Route.disk _ _ => true
  | _ => false

/-- A guarded read is refused. -/
def guardsRead (p : PathArg) : Bool :=
  match patch.router.read p.denotes with
  | Route.deny _ => true
  | Route.root => true
  | _ => false

/-- What a call writes reaches the original function without the mutation routing:
a read routing passed it, or the patch saw no path. -/
def overlooks : Call -> Bool
  | Call.readFile p _ => p.paths.all (fun p => p.unseen || patch.readsNatively p)
  | Call.openFile p _ => p.unseen || patch.readsNatively p
  | Call.symlink target path => path.unseen && (target.unseen || !patch.guardsRead target)
  | call => call.paths.any PathArg.unseen

/-- The original function writes only what the router passed as a mutation. -/
def ObeysMutation (sync : Bool) (call : Call) : Prop :=
  passes (patch.core sync call) = true ->
    forall p, p ∈ call.written -> patch.router.mutate p.denotes = Route.passthrough

/-- A call that writes what the mutation routing withholds, unrouted. -/
def Bypasses (call : Call) : Prop :=
  patch.overlooks call = true ∧
    exists p, p ∈ call.written ∧ patch.router.mutate p.denotes ≠ Route.passthrough

variable {patch}

theorem readRoute_native {p : PathArg} (h : p.unseen = true ∨ patch.readsNatively p = true)
    (syscall : Syscall) (core : Core) (serve : FilePath -> Route -> Core) :
    patch.readRoute p syscall false core serve = core := by
  cases hseen : p.unseen with
  | true => exact readRoute_unseen hseen syscall false core serve
  | false =>
      rcases h with hunseen | hread
      · rw [hseen] at hunseen
        cases hunseen
      · unfold readsNatively at hread
        unfold readRoute
        rw [pathOf_of_seen hseen]
        dsimp only
        cases hroute : patch.router.read p.denotes with
        | passthrough => rfl
        | disk place key => rfl
        | _ =>
            rw [hroute] at hread
            cases hread

/-- A path the read routing keeps is not the original function's. -/
theorem readRoute_kept {p : PathArg} (hseen : p.unseen = false)
    (hread : patch.readsNatively p = false) {syscall : Syscall} {core : Core}
    {serve : FilePath -> Route -> Core}
    (hserve : forall filePath route, passes (serve filePath route) ≠ true) :
    passes (patch.readRoute p syscall false core serve) ≠ true := by
  unfold readsNatively at hread
  unfold readRoute
  rw [pathOf_of_seen hseen]
  dsimp only
  cases hroute : patch.router.read p.denotes with
  | passthrough =>
      rw [hroute] at hread
      cases hread
  | disk place key =>
      rw [hroute] at hread
      cases hread
  | deny code => exact passes_refuse _ _ _ _
  | _ => exact hserve _ _

theorem readFile_kept {p : PathArg} (hseen : p.unseen = false)
    (hread : patch.readsNatively p = false) : passes (patch.readFile p) ≠ true := by
  apply readRoute_kept hseen hread
  intro filePath route
  cases route with
  | _ => exact fun h => by cases h

theorem openFile_kept {p : PathArg} (hseen : p.unseen = false)
    (hread : patch.readsNatively p = false) : passes (patch.openFile p) ≠ true := by
  apply readRoute_kept hseen hread
  exact fun filePath _ => passes_refuse _ _ filePath _

theorem guardRead_native {p : PathArg}
    (h : p.unseen = true ∨ patch.guardsRead p = false) (syscall : Syscall) (core : Core) :
    patch.guardRead p syscall core = core := by
  cases hseen : p.unseen with
  | true => exact readRoute_unseen hseen syscall false core _
  | false =>
      rcases h with hunseen | hread
      · rw [hseen] at hunseen
        cases hunseen
      · unfold guardsRead at hread
        unfold guardRead readRoute
        rw [pathOf_of_seen hseen]
        dsimp only
        cases hroute : patch.router.read p.denotes with
        | deny code =>
            rw [hroute] at hread
            cases hread
        | root =>
            rw [hroute] at hread
            cases hread
        | _ => rfl

/-- A guarded read that reaches the original function passed on to its core. -/
theorem guardRead_passes {p : PathArg} {syscall : Syscall} {core : Core}
    (h : passes (patch.guardRead p syscall core) = true) :
    passes core = true ∧ (p.unseen = true ∨ patch.guardsRead p = false) := by
  cases hseen : p.unseen with
  | true =>
      rw [guardRead_native (Or.inl hseen)] at h
      exact ⟨h, Or.inl rfl⟩
  | false =>
      cases hguards : patch.guardsRead p with
      | false =>
          rw [guardRead_native (Or.inr hguards)] at h
          exact ⟨h, Or.inr rfl⟩
      | true =>
          unfold guardsRead at hguards
          unfold guardRead readRoute at h
          rw [pathOf_of_seen hseen] at h
          dsimp only at h
          cases hroute : patch.router.read p.denotes with
          | deny code =>
              rw [hroute] at h
              exact absurd h (passes_refuse _ _ _ _)
          | root =>
              rw [hroute] at h
              exact absurd h (passes_refuse _ _ _ _)
          | _ =>
              rw [hroute] at hguards
              cases hguards

theorem overlooks_path {p : PathArg} (h : [p].any PathArg.unseen = true) : p.unseen = true := by
  rcases List.any_eq_true.mp h with ⟨q, hq, hunseen⟩
  rw [List.mem_singleton.mp hq] at hunseen
  exact hunseen

theorem overlooks_pair {src dest : PathArg} (h : [src, dest].any PathArg.unseen = true) :
    src.unseen = true ∨ dest.unseen = true := by
  rcases List.any_eq_true.mp h with ⟨q, hq, hunseen⟩
  rcases List.mem_cons.mp hq with heq | hmem
  · rw [heq] at hunseen
    exact Or.inl hunseen
  · rw [List.mem_singleton.mp hmem] at hunseen
    exact Or.inr hunseen

theorem seen_path {p : PathArg} (h : [p].any PathArg.unseen = false) : p.unseen = false :=
  eq_false_of_ne_true (List.any_eq_false.mp h p List.mem_cons_self)

theorem seen_pair {src dest : PathArg} (h : [src, dest].any PathArg.unseen = false) :
    src.unseen = false ∧ dest.unseen = false :=
  ⟨eq_false_of_ne_true (List.any_eq_false.mp h src List.mem_cons_self),
    eq_false_of_ne_true
      (List.any_eq_false.mp h dest (List.mem_cons_of_mem _ List.mem_cons_self))⟩

/-- What a call may write reaches the original function when it is overlooked. -/
theorem overlooked_passes {call : Call} (hwritten : call.written ≠ [])
    (h : patch.overlooks call = true) (sync : Bool) : passes (patch.core sync call) = true := by
  cases call with
  | readFile p writes =>
      cases p with
      | descriptor fd => rfl
      | path p =>
          have hread : p.unseen = true ∨ patch.readsNatively p = true := by
            simpa [overlooks, FileArg.paths] using h
          exact congrArg passes (readRoute_native hread _ _ _)
  | openFile p writes =>
      have hread : p.unseen = true ∨ patch.readsNatively p = true :=
        (Bool.or_eq_true _ _).mp h
      exact congrArg passes (readRoute_native hread _ _ _)
  | writeFile p =>
      cases p with
      | descriptor fd => rfl
      | path p => exact congrArg passes (mutationRoute_unseen (overlooks_path h) _ _ _ _)
  | appendFile p =>
      cases p with
      | descriptor fd => rfl
      | path p => exact congrArg passes (mutationRoute_unseen (overlooks_path h) _ _ _ _)
  | unlink p => exact congrArg passes (mutationRoute_unseen (overlooks_path h) _ _ _ _)
  | mkdir p => exact congrArg passes (mutationRoute_unseen (overlooks_path h) _ _ _ _)
  | rm p recursive =>
      show passes (patch.rm p recursive sync) = true
      unfold rm
      rw [mutationRoute_unseen (overlooks_path h), walkGuard_unseen (overlooks_path h)]
      rfl
  | rename src dest => exact congrArg passes (rename_unseen (overlooks_pair h) sync)
  | copyFile src dest => exact congrArg passes (copyOf_unseen (overlooks_pair h) _ _)
  | cp src dest recursive => exact congrArg passes (copyOf_unseen (overlooks_pair h) _ _)
  | rmdir p recursive =>
      show passes (patch.rmdir p recursive) = true
      unfold rmdir
      rw [guardMutation_unseen (overlooks_path h), walkGuard_unseen (overlooks_path h)]
      rfl
  | link src dest => exact congrArg passes (link_unseen (overlooks_pair h))
  | guarded op p =>
      cases p with
      | descriptor fd => rfl
      | path p => exact congrArg passes (guardMutation_unseen (overlooks_path h) _ _)
  | symlink target path =>
      have hparts : path.unseen = true ∧ (target.unseen = true ∨ patch.guardsRead target = false) := by
        simpa [overlooks] using h
      show passes (patch.guardRead target Syscall.symlink
        (patch.guardMutation path Syscall.symlink native)) = true
      rw [guardRead_native hparts.2, guardMutation_unseen hparts.1]
      rfl
  | _ => exact absurd rfl hwritten

/-- Every other call obeys the mutation routing. -/
theorem obeys_of_not_overlooked {call : Call} (h : patch.overlooks call = false) (sync : Bool) :
    patch.ObeysMutation sync call := by
  intro hpass q hq
  cases call with
  | readFile p writes =>
      cases p with
      | descriptor fd => cases h
      | path p =>
          have hread : p.unseen = false ∧ patch.readsNatively p = false := by
            simpa [overlooks, FileArg.paths] using h
          exact absurd hpass (readFile_kept hread.1 hread.2)
  | openFile p writes =>
      have hread : p.unseen = false ∧ patch.readsNatively p = false :=
        (Bool.or_eq_false_iff).mp h
      exact absurd hpass (openFile_kept hread.1 hread.2)
  | writeFile p =>
      cases p with
      | descriptor fd => cases hq
      | path p =>
          rw [List.mem_singleton.mp hq]
          exact mutation_passes (seen_path h) hpass
  | appendFile p =>
      cases p with
      | descriptor fd => cases hq
      | path p =>
          rw [List.mem_singleton.mp hq]
          exact mutation_passes (seen_path h) hpass
  | unlink p =>
      rw [List.mem_singleton.mp hq]
      exact mutation_passes (seen_path h) hpass
  | mkdir p =>
      rw [List.mem_singleton.mp hq]
      exact mutation_passes (seen_path h) hpass
  | rm p recursive =>
      rw [List.mem_singleton.mp hq]
      exact mutationRoute_passes (seen_path h) (fun _ _ _ => fun h => by cases h) hpass
  | rename src dest =>
      have hroutes := rename_passes (seen_pair h).1 (seen_pair h).2 hpass
      rcases List.mem_cons.mp hq with heq | hmem
      · rw [heq]
        exact hroutes.1
      · rw [List.mem_singleton.mp hmem]
        exact hroutes.2
  | copyFile src dest =>
      rw [List.mem_singleton.mp hq]
      exact copyOf_passes (seen_pair h).1 (seen_pair h).2 hpass
  | cp src dest recursive =>
      rw [List.mem_singleton.mp hq]
      exact copyOf_passes (seen_pair h).1 (seen_pair h).2 hpass
  | rmdir p recursive =>
      rw [List.mem_singleton.mp hq]
      exact guardMutation_passes (seen_path h) hpass
  | link src dest =>
      rw [List.mem_singleton.mp hq]
      exact link_passes (seen_pair h).1 (seen_pair h).2 hpass
  | guarded op p =>
      cases p with
      | descriptor fd => cases hq
      | path p =>
          rw [List.mem_singleton.mp hq]
          exact guardMutation_passes (seen_path h) hpass
  | symlink target path =>
      rw [List.mem_singleton.mp hq]
      have hguarded := guardRead_passes hpass
      have hseen : path.unseen = false := by
        cases hpath : path.unseen with
        | false => rfl
        | true =>
            exfalso
            have hoverlooked : patch.overlooks (Call.symlink target path) = true := by
              simpa [overlooks, hpath] using hguarded.2
            rw [h] at hoverlooked
            cases hoverlooked
      exact guardMutation_passes hseen hguarded.1
  | _ => cases hq

def demoConfig : PlaceConfig :=
  { name := "app"
    maxFileSize := 64
    require := none
    fs := some { ext := some ["js"], script := none, compress := none }
    prepare := [] }

/-- What follows the first dot. -/
def demoExt (key : Key) : Ext := String.ofList (key.dropWhile (fun c => c ≠ '.')).tail

/-- The key and the path of one script. -/
def demoScript : Key := ['/', 'a', '.', 'j', 's']

def demoText : Key := ['/', 'a', '.', 'm', 'd']

def demoPath (key : Key) : FilePath := ['/', 'a', 'p', 'p'] ++ key

/-- A read-only place whose only source is too large for the cache. -/
def readOnlyPlace : RoutedPlace :=
  { config := demoConfig
    provider := Provider.sab
    origin := some Origin.disk
    writable := false
    fallback := some Fallback.deny
    scanExt := some ["js"]
    files := PlaceFiles.empty.set (EntryKey.ofSource demoScript)
      { data := none, stat := { size := 99, mtimeMs := 0 } }
    sync := true
    originated := disk_originated Provider.sab }

def strictPatch (place : RoutedPlace)
    (renames : RoutedPlace -> Key -> Key -> Except Refusal Unit) : FsPatch :=
  { router :=
      { registry := { appRoot := [], cwd := [], places := [place] }
        strict := true
        fileExt := demoExt }
    disk := fun _ => none
    diskDirectory := fun _ => false
    renames := renames }

def readOnlyPatch : FsPatch := strictPatch readOnlyPlace (fun _ _ _ => Except.ok ())

variable (patch)

/-- The read routing denies the path. -/
def hides (p : PathArg) : Bool :=
  match patch.router.read p.denotes with
  | Route.deny _ => true
  | _ => false

/-- The store of one virtual place carries a rename out. -/
def movesInStore (sync : Bool) : Call -> Bool
  | Call.rename src dest =>
      match patch.router.mutate src.denotes, patch.router.mutate dest.denotes with
      | Route.store place key, Route.store place' key' =>
          !asynchronous sync (Route.store place key) &&
            !asynchronous sync (Route.store place' key') &&
            decide (key ≠ [] ∧ key' ≠ [] ∧ place.config.name = place'.config.name) &&
            (patch.renames place key key').isOk
      | _, _ => false
  | _ => false

def invoke : Invocation -> Core
  | Invocation.call sync called => patch.core sync called
  | Invocation.probe probed => patch.probe probed

/-- A hidden source is refused, or does not exist. -/
def Shields (invocation : Invocation) : Prop :=
  forall p, p ∈ invocation.sources -> patch.hides p = true ->
    withholds (patch.invoke invocation) = true

/-- The patch sees no path in some argument, or the store moves a source the read
routing hides. -/
def slips : Invocation -> Bool
  | Invocation.call sync called =>
      called.paths.any PathArg.unseen || patch.movesInStore sync called
  | Invocation.probe probed => probed.sources.any PathArg.unseen

def Exposes (invocation : Invocation) : Prop :=
  patch.slips invocation = true ∧
    exists p, p ∈ invocation.sources ∧ patch.hides p = true

variable {patch}

theorem read_of_hides {p : PathArg} (h : patch.hides p = true) :
    exists code, patch.router.read p.denotes = Route.deny code := by
  unfold hides at h
  cases hroute : patch.router.read p.denotes with
  | deny code => exact ⟨code, rfl⟩
  | _ =>
      rw [hroute] at h
      cases h

theorem readRoute_hidden {p : PathArg} (hseen : p.unseen = false) (hhides : patch.hides p = true)
    (syscall : Syscall) (listing : Bool) (core : Core) (serve : FilePath -> Route -> Core) :
    withholds (patch.readRoute p syscall listing core serve) = true := by
  rcases read_of_hides hhides with ⟨code, hdeny⟩
  rw [readRoute_deny hseen hdeny]
  rfl

theorem existsSync_unseen {p : PathArg} (h : p.unseen = true) :
    patch.existsSync p = native := by
  unfold existsSync
  rw [pathOf_of_unseen h]

theorem existsSync_hidden {p : PathArg} (hseen : p.unseen = false)
    (hhides : patch.hides p = true) : withholds (patch.existsSync p) = true := by
  rcases read_of_hides hhides with ⟨code, hdeny⟩
  unfold existsSync
  rw [pathOf_of_seen hseen]
  dsimp only
  rw [hdeny]
  rfl

theorem copyOf_hidden {src dest : PathArg} (hsrc : src.unseen = false)
    (hdest : dest.unseen = false) (hhides : patch.hides src = true) (syscall : Syscall)
    (recursive : Bool) : withholds (patch.copyOf src dest syscall recursive) = true := by
  rcases read_of_hides hhides with ⟨code, hdeny⟩
  unfold copyOf
  rw [pathOf_of_seen hsrc, pathOf_of_seen hdest]
  dsimp only
  rw [patch.router.copy_of_deny hdeny]
  rfl

theorem link_hidden {src dest : PathArg} (hsrc : src.unseen = false)
    (hdest : dest.unseen = false) (hhides : patch.hides src = true) :
    withholds (patch.link src dest) = true := by
  rcases read_of_hides hhides with ⟨code, hdeny⟩
  unfold link
  rw [pathOf_of_seen hsrc, pathOf_of_seen hdest]
  dsimp only
  rw [patch.router.link_of_deny hdeny]
  rfl

/-- A rename of a hidden source is refused, unless the store of its place carries it
out. -/
theorem rename_hidden {src dest : PathArg} (hsrc : src.unseen = false)
    (hdest : dest.unseen = false) (hhides : patch.hides src = true) {sync : Bool} :
    withholds (patch.rename src dest sync) = true <->
      patch.movesInStore sync (Call.rename src dest) = false := by
  rcases read_of_hides hhides with ⟨code, hdeny⟩
  unfold rename movesInStore
  rw [pathOf_of_seen hsrc, pathOf_of_seen hdest]
  dsimp only
  rcases patch.router.mutate_cases src.denotes with
    hfrom | ⟨code, hfrom⟩ | ⟨place, key, hfrom, _⟩
  · rw [hfrom]
    dsimp only
    rw [if_neg (fun hasync => by cases hasync)]
    rcases patch.router.mutate_cases dest.denotes with
      hinto | ⟨code, hinto⟩ | ⟨place, key, hinto, _⟩
    · rw [hinto]
      dsimp only
      rw [if_neg (fun hasync => by cases hasync)]
      unfold renameNative
      rw [patch.router.rename_of_deny hdeny]
      exact iff_of_true rfl rfl
    · rw [hinto]
      exact iff_of_true rfl rfl
    · rw [hinto]
      dsimp only
      split_ifs
      all_goals exact iff_of_true rfl rfl
  · rw [hfrom]
    exact iff_of_true rfl rfl
  · rw [hfrom]
    dsimp only
    rcases patch.router.mutate_cases dest.denotes with
      hinto | ⟨code, hinto⟩ | ⟨place', key', hinto, _⟩
    · rw [hinto]
      dsimp only
      split_ifs
      all_goals exact iff_of_true rfl rfl
    · rw [hinto]
      dsimp only
      split_ifs
      all_goals exact iff_of_true rfl rfl
    · rw [hinto]
      dsimp only
      cases hasync : asynchronous sync (Route.store place key) with
      | true => exact iff_of_true rfl rfl
      | false =>
          cases hasync' : asynchronous sync (Route.store place' key') with
          | true => exact iff_of_true rfl rfl
          | false =>
              by_cases hroot : key = [] ∨ key' = []
              · rw [if_neg Bool.false_ne_true, if_neg Bool.false_ne_true, if_pos hroot]
                refine iff_of_true rfl ?_
                rw [decide_eq_false (fun h => hroot.elim h.1 h.2.1)]
                rfl
              · rw [if_neg Bool.false_ne_true, if_neg Bool.false_ne_true, if_neg hroot]
                have hkeys := not_or.mp hroot
                by_cases hname : place.config.name = place'.config.name
                · rw [if_pos hname, decide_eq_true ⟨hkeys.1, hkeys.2, hname⟩]
                  unfold renameStored
                  cases patch.renames place key key' with
                  | error refusal => exact iff_of_true rfl rfl
                  | ok moved => exact iff_of_false (fun h => by cases h) (fun h => by cases h)
                · rw [if_neg hname, decide_eq_false (fun h => hname h.2.2)]
                  exact iff_of_true rfl rfl

/-- An argument the patch sees no path in takes its call to the original function. -/
theorem unseen_native {invocation : Invocation} (hsources : invocation.sources ≠ [])
    (h : invocation.paths.any PathArg.unseen = true) : patch.invoke invocation = native := by
  cases invocation with
  | probe probed =>
      cases probed with
      | existsSync p => exact existsSync_unseen (overlooks_path h)
      | createReadStream p =>
          show patch.readFile p = native
          exact readRoute_unseen (overlooks_path h) _ _ _ _
      | watch p recursive =>
          show patch.watch p recursive = native
          unfold watch
          rw [readRoute_unseen (overlooks_path h), walkGuard_unseen (overlooks_path h)]
      | watchFile p => exact guardRead_native (Or.inl (overlooks_path h)) _ _
  | call sync called =>
      cases called with
      | readFile p writes =>
          cases p with
          | descriptor fd => rfl
          | path p =>
              show patch.readFile p = native
              exact readRoute_unseen (overlooks_path h) _ _ _ _
      | stat p => exact readRoute_unseen (overlooks_path h) _ _ _ _
      | lstat p => exact readRoute_unseen (overlooks_path h) _ _ _ _
      | access p mode =>
          show patch.access p mode = native
          exact readRoute_unseen (overlooks_path h) _ _ _ _
      | realpath p =>
          show patch.realpath p = native
          exact readRoute_unseen (overlooks_path h) _ _ _ _
      | readdir p recursive =>
          show patch.readdir p recursive = native
          unfold readdir
          rw [readRoute_unseen (overlooks_path h), walkGuard_unseen (overlooks_path h)]
      | opendir p recursive =>
          show patch.opendir p recursive = native
          unfold opendir
          rw [readRoute_unseen (overlooks_path h), walkGuard_unseen (overlooks_path h)]
      | openFile p writes =>
          show patch.openFile p = native
          exact readRoute_unseen (overlooks_path h) _ _ _ _
      | rename src dest => exact rename_unseen (overlooks_pair h) sync
      | copyFile src dest => exact copyOf_unseen (overlooks_pair h) _ _
      | cp src dest recursive => exact copyOf_unseen (overlooks_pair h) _ _
      | link src dest => exact link_unseen (overlooks_pair h)
      | readlink p => exact guardRead_native (Or.inl (overlooks_path h)) _ _
      | statfs p => exact guardRead_native (Or.inl (overlooks_path h)) _ _
      | _ => exact absurd rfl hsources

/-- A hidden source the patch sees is withheld, the store's renames apart. -/
theorem hidden_withheld {invocation : Invocation} {p : PathArg}
    (hseen : invocation.paths.any PathArg.unseen = false) (hp : p ∈ invocation.sources)
    (hhides : patch.hides p = true) :
    withholds (patch.invoke invocation) = true <-> patch.slips invocation = false := by
  have hread : forall (q : PathArg), [q].any PathArg.unseen = false -> p ∈ [q] ->
      forall (syscall : Syscall) (listing : Bool) (core : Core)
        (serve : FilePath -> Route -> Core),
        withholds (patch.readRoute q syscall listing core serve) = true := by
    intro q hq hmem syscall listing core serve
    rw [List.mem_singleton.mp hmem] at hhides
    exact readRoute_hidden (seen_path hq) hhides syscall listing core serve
  cases invocation with
  | probe probed =>
      refine iff_of_true ?_ hseen
      cases probed with
      | existsSync q =>
          rw [List.mem_singleton.mp hp] at hhides
          exact existsSync_hidden (seen_path hseen) hhides
      | createReadStream q =>
          show withholds (patch.readFile q) = true
          exact hread q hseen hp _ _ _ _
      | watch q recursive =>
          show withholds (patch.watch q recursive) = true
          exact hread q hseen hp _ _ _ _
      | watchFile q =>
          show withholds (patch.guardRead q Syscall.watch native) = true
          exact hread q hseen hp _ _ _ _
  | call sync called =>
      show _ <-> (called.paths.any PathArg.unseen || patch.movesInStore sync called) = false
      rw [show called.paths.any PathArg.unseen = false from hseen, Bool.false_or]
      cases called with
      | readFile q writes =>
          cases q with
          | descriptor fd => cases hp
          | path q =>
              refine iff_of_true ?_ rfl
              show withholds (patch.readFile q) = true
              exact hread q hseen hp _ _ _ _
      | stat q => exact iff_of_true (hread q hseen hp _ _ _ _) rfl
      | lstat q => exact iff_of_true (hread q hseen hp _ _ _ _) rfl
      | access q mode =>
          refine iff_of_true ?_ rfl
          show withholds (patch.access q mode) = true
          exact hread q hseen hp _ _ _ _
      | realpath q =>
          refine iff_of_true ?_ rfl
          show withholds (patch.realpath q) = true
          exact hread q hseen hp _ _ _ _
      | readdir q recursive =>
          refine iff_of_true ?_ rfl
          show withholds (patch.readdir q recursive) = true
          exact hread q hseen hp _ _ _ _
      | opendir q recursive =>
          refine iff_of_true ?_ rfl
          show withholds (patch.opendir q recursive) = true
          exact hread q hseen hp _ _ _ _
      | openFile q writes =>
          refine iff_of_true ?_ rfl
          show withholds (patch.openFile q) = true
          exact hread q hseen hp _ _ _ _
      | rename src dest =>
          rw [List.mem_singleton.mp hp] at hhides
          exact rename_hidden (seen_pair hseen).1 (seen_pair hseen).2 hhides
      | copyFile src dest =>
          rw [List.mem_singleton.mp hp] at hhides
          exact iff_of_true
            (copyOf_hidden (seen_pair hseen).1 (seen_pair hseen).2 hhides _ _) rfl
      | cp src dest recursive =>
          rw [List.mem_singleton.mp hp] at hhides
          exact iff_of_true
            (copyOf_hidden (seen_pair hseen).1 (seen_pair hseen).2 hhides _ _) rfl
      | link src dest =>
          rw [List.mem_singleton.mp hp] at hhides
          exact iff_of_true (link_hidden (seen_pair hseen).1 (seen_pair hseen).2 hhides) rfl
      | readlink q =>
          refine iff_of_true ?_ rfl
          show withholds (patch.guardRead q Syscall.readlink native) = true
          exact hread q hseen hp _ _ _ _
      | statfs q =>
          refine iff_of_true ?_ rfl
          show withholds (patch.guardRead q Syscall.statfs native) = true
          exact hread q hseen hp _ _ _ _
      | _ => cases hp

/-- A virtual place that shows scripts only and holds a text. -/
def virtualPlace : RoutedPlace :=
  { config := demoConfig
    provider := Provider.map
    origin := some Origin.virtual
    writable := true
    fallback := none
    scanExt := some ["js"]
    files := PlaceFiles.empty.set (EntryKey.ofSource demoText)
      { data := some [1], stat := { size := 1, mtimeMs := 0 } }
    sync := true
    originated := fun _ => Or.inr rfl }

def virtualStore : Place :=
  { config := demoConfig
    root := "/app"
    fileExt := demoExt
    registered := fun _ => none
    compileRequire := fun _ _ => none
    compileScript := fun _ _ => none }

def virtualFiles : Files :=
  PlaceFiles.empty.set (EntryKey.ofSource demoText)
    { data := [1], stat := { size := 1, mtimeMs := 0 } }

def virtualPatch : FsPatch :=
  strictPatch virtualPlace
    (fun _ source target => (MapStore.rename virtualStore virtualFiles source target false).2)

end FsPatch

end SharedMemoryFs
