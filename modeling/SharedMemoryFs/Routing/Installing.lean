import Mathlib.Data.List.Basic
import Mathlib.Tactic

/-!
# Installing the patch

{lit}`install` replaces functions of {lit}`node:fs` by wrappers and {lit}`uninstall` puts
the originals back.  A wrapper closes over the function it replaced, and all of them
read the one slot that holds the kernel.
-/

namespace SharedMemoryFs

namespace FsInstall

inductive Target where
  | fs
  | promises
deriving DecidableEq, Repr

/-- A property of {lit}`node:fs` or of {lit}`fs.promises`. -/
structure Property where
  target : Target
  name : String
deriving DecidableEq, Repr

/-- How a wrapper is made of an operation core and an original. -/
inductive Variant where
  | sync
  | callback
  | promise
  | existsSync
  | createReadStream
  | watchPromises
  | globSync
  | globCallback
  | globPromises
deriving DecidableEq, Repr

/-- What {lit}`install` patches, when the function it asks for is there. -/
structure Entry where
  property : Property
  variant : Variant
  requires : Option Property
deriving DecidableEq, Repr

def fsOf (name : String) : Property := ⟨Target.fs, name⟩

def promisesOf (name : String) : Property := ⟨Target.promises, name⟩

/-- The names of {lit}`TABLE`. -/
def table : List String :=
  ["readFile", "stat", "lstat", "access", "realpath", "readdir", "opendir", "open",
    "writeFile", "appendFile", "unlink", "mkdir", "rm", "rename", "copyFile", "cp", "rmdir",
    "link"]

/-- The names of {lit}`GUARDS`. -/
def guards : List String :=
  ["readlink", "statfs", "truncate", "utimes", "lutimes", "chmod", "lchmod", "chown",
    "lchown", "symlink"]

def tableEntries (name : String) : List Entry :=
  [⟨fsOf name, Variant.callback, none⟩,
    ⟨fsOf (name ++ "Sync"), Variant.sync, none⟩,
    ⟨promisesOf name, Variant.promise, none⟩]

def guardEntries (name : String) : List Entry :=
  [⟨fsOf name, Variant.callback, some (fsOf name)⟩,
    ⟨fsOf (name ++ "Sync"), Variant.sync, some (fsOf (name ++ "Sync"))⟩,
    ⟨promisesOf name, Variant.promise, some (promisesOf name)⟩]

def globEntries : List Entry :=
  [⟨fsOf "globSync", Variant.globSync, some (fsOf "globSync")⟩,
    ⟨fsOf "glob", Variant.globCallback, some (fsOf "globSync")⟩,
    ⟨promisesOf "glob", Variant.globPromises, some (fsOf "globSync")⟩]

def otherEntries : List Entry :=
  [⟨fsOf "watch", Variant.sync, none⟩,
    ⟨promisesOf "watch", Variant.watchPromises, none⟩,
    ⟨fsOf "watchFile", Variant.sync, none⟩,
    ⟨fsOf "existsSync", Variant.existsSync, none⟩,
    ⟨fsOf "createReadStream", Variant.createReadStream, none⟩]

def entries : List Entry :=
  table.flatMap tableEntries ++ guards.flatMap guardEntries ++ globEntries ++ otherEntries

/-- The entries of a platform that has the {lit}`available` functions. -/
def patches (available : Property -> Bool) : List Entry :=
  entries.filter (fun entry => entry.requires.all available)

/-- A function a property can hold.  The functions of {lit}`node:fs` are {lit}`id`s. -/
inductive Fn (id : Type) where
  | native (fn : id)
  | patched (property : Property) (variant : Variant) (original : Fn id)

/-- The patch module and the properties it writes.  {lit}`installed` lists what has been
replaced, in order. -/
structure Patched (kappa id : Type) where
  kernel : Option kappa
  installed : Option (List (Property × Fn id))
  props : Property -> Fn id

variable {kappa id : Type}

namespace Patched

def assign (props : Property -> Fn id) (property : Property) (fn : Fn id) :
    Property -> Fn id :=
  fun p => if p = property then fn else props p

/-- {lit}`patch`. -/
def patch (state : Patched kappa id) (entry : Entry) : Patched kappa id :=
  let original := state.props entry.property
  { state with
    installed := state.installed.map (fun list => list ++ [(entry.property, original)])
    props := assign state.props entry.property
      (Fn.patched entry.property entry.variant original) }

def install (available : Property -> Bool) (k : kappa) (state : Patched kappa id) :
    Patched kappa id :=
  if state.installed.isSome then state
  else (patches available).foldl patch { state with kernel := some k, installed := some [] }

def uninstall (state : Patched kappa id) : Patched kappa id :=
  match state.installed with
  | none => state
  | some list =>
      { kernel := none
        installed := none
        props := list.reverse.foldl (fun props replaced => assign props replaced.1 replaced.2)
          state.props }

end Patched

inductive Step (kappa : Type) where
  | install (k : kappa)
  | uninstall

def Step.apply (available : Property -> Bool) (state : Patched kappa id) :
    Step kappa -> Patched kappa id
  | Step.install k => state.install available k
  | Step.uninstall => state.uninstall

/-- Before the first install. -/
def initial (before : Property -> id) : Patched kappa id :=
  { kernel := none
    installed := none
    props := fun property => Fn.native (before property) }

def run (available : Property -> Bool) (before : Property -> id) (steps : List (Step kappa)) :
    Patched kappa id :=
  steps.foldl (Step.apply available) (initial before)

/-!
# Calls
-/

/-- An argument of a call.  {lit}`screened` is a callback behind the filter of
{lit}`globCallback`. -/
inductive Arg (alpha : Type) where
  | undefined
  | null
  | function (callback : alpha)
  | screened (callback : Arg alpha)
  | value (data : alpha)
deriving DecidableEq

def Arg.isFunction {alpha : Type} : Arg alpha -> Bool
  | Arg.function _ => true
  | Arg.screened _ => true
  | _ => false

/-- What a call does: an operation core is run under a kernel, a function of
{lit}`node:fs` is called, or the results of such a call go through {lit}`allowedIn`. -/
inductive Event (kappa id alpha : Type) where
  | routed (kernel : kappa) (property : Property) (receiver : alpha) (args : List (Arg alpha))
  | called (fn : id) (receiver : alpha) (args : List (Arg alpha))
  | screens

variable {alpha : Type}

/-- The arguments as {lit}`(p, ...args)` binds them. -/
def bound (args : List (Arg alpha)) : List (Arg alpha) := args.headD Arg.undefined :: args.tail

/-- The last of {lit}`...args`, taken when it is a function. -/
def callbackArgs (args : List (Arg alpha)) : List (Arg alpha) :=
  match args.tail.getLast? with
  | some last =>
      if last.isFunction then args.headD Arg.undefined :: args.tail
      else args.headD Arg.undefined :: args.tail ++ [Arg.null]
  | none => [args.headD Arg.undefined, Arg.null]

/-- What a wrapper hands to the original function. -/
def handed : Variant -> List (Arg alpha) -> List (Arg alpha)
  | Variant.sync, args => bound args
  | Variant.callback, args => callbackArgs args
  | Variant.promise, args => bound args
  | Variant.existsSync, args => [args.headD Arg.undefined]
  | Variant.createReadStream, args => [args.headD Arg.undefined, args.tail.headD Arg.undefined]
  | Variant.watchPromises, args => bound args
  | Variant.globSync, args => args
  | Variant.globCallback, args =>
      args.dropLast ++ [Arg.screened ((args.getLast?).getD Arg.undefined)]
  | Variant.globPromises, args => args

/-- Globs take patterns: their results are filtered, no argument is routed. -/
def Variant.globs : Variant -> Bool
  | Variant.globSync => true
  | Variant.globCallback => true
  | Variant.globPromises => true
  | _ => false

/-- A call of a function while {lit}`kernel` holds what it holds.  {lit}`passes` says
which calls an operation core answers with {lit}`PASS`. -/
def call (passes : kappa -> Property -> List (Arg alpha) -> Bool) (kernel : Option kappa) :
    Fn id -> alpha -> List (Arg alpha) -> List (Event kappa id alpha)
  | Fn.native fn, receiver, args => [Event.called fn receiver args]
  | Fn.patched property variant original, receiver, args =>
      match kernel with
      | none => call passes none original receiver args
      | some k =>
          if variant.globs then
            call passes (some k) original receiver (handed variant args) ++ [Event.screens]
          else if passes k property args then
            Event.routed k property receiver args ::
              call passes (some k) original receiver (handed variant args)
          else [Event.routed k property receiver args]

/-- {lit}`allowedIn`, asked when a result arrives: with no kernel everything stays. -/
def allowed (denies : kappa -> List Char -> Bool) (kernel : Option kappa)
    (filePath : List Char) : Bool :=
  match kernel with
  | none => true
  | some k => !denies k filePath

/-!
# What is patched
-/

theorem nodup_entries : (entries.map Entry.property).Nodup := by decide +kernel

theorem nodup_patches (available : Property -> Bool) :
    ((patches available).map Entry.property).Nodup :=
  nodup_entries.sublist (List.filter_sublist.map Entry.property)

/-- The entry of a property. -/
def entryOf (list : List Entry) (property : Property) : Option Entry :=
  list.find? (fun entry => decide (entry.property = property))

theorem entryOf_property {list : List Entry} {property : Property} {entry : Entry}
    (h : entryOf list property = some entry) : entry.property = property := by
  unfold entryOf at h
  have hfound := List.find?_some h
  exact of_decide_eq_true hfound

theorem entryOf_cons (entry : Entry) (list : List Entry) (property : Property) :
    entryOf (entry :: list) property =
      if entry.property = property then some entry else entryOf list property := by
  unfold entryOf
  rw [List.find?_cons]
  by_cases heq : entry.property = property
  · rw [if_pos heq, decide_eq_true heq]
  · rw [if_neg heq, decide_eq_false heq]

theorem entryOf_none {list : List Entry} {property : Property}
    (h : property ∉ list.map Entry.property) : entryOf list property = none := by
  apply List.find?_eq_none.mpr
  intro entry hmem heq
  apply h
  rw [← of_decide_eq_true heq]
  exact List.mem_map.mpr ⟨entry, hmem, rfl⟩

/-- A property once some entries are patched, each over what it held before. -/
def wrapped (list : List Entry) (props : Property -> Fn id) (property : Property) : Fn id :=
  match entryOf list property with
  | some entry => Fn.patched property entry.variant (props property)
  | none => props property

/-!
# One step
-/

namespace Patched

/-- Patching properties that differ wraps each of them once. -/
theorem foldl_patch {list : List Entry} (hnodup : (list.map Entry.property).Nodup)
    (state : Patched kappa id) {replaced : List (Property × Fn id)}
    (hinstalled : state.installed = some replaced) :
    list.foldl patch state =
      { kernel := state.kernel
        installed := some (replaced ++ list.map (fun entry =>
          (entry.property, state.props entry.property)))
        props := wrapped list state.props } := by
  induction list generalizing state replaced with
  | nil =>
      rw [List.foldl_nil, List.map_nil, List.append_nil, ← hinstalled]
      rfl
  | cons entry rest ih =>
      have hparts := List.nodup_cons.mp hnodup
      have hrest := ih hparts.2 (state.patch entry)
        (show (state.patch entry).installed =
          some (replaced ++ [(entry.property, state.props entry.property)]) by
            unfold patch
            rw [hinstalled]
            rfl)
      have hkept : forall property, property ∈ rest.map Entry.property ->
          (state.patch entry).props property = state.props property := by
        intro property hmem
        apply if_neg
        intro heq
        rw [heq] at hmem
        exact hparts.1 hmem
      have hmap : rest.map (fun e => (e.property, (state.patch entry).props e.property)) =
          rest.map (fun e => (e.property, state.props e.property)) := by
        apply List.map_congr_left
        intro e he
        rw [hkept e.property (List.mem_map.mpr ⟨e, he, rfl⟩)]
      have hprops : wrapped rest (state.patch entry).props = wrapped (entry :: rest) state.props := by
        funext property
        unfold wrapped
        rw [entryOf_cons]
        by_cases heq : entry.property = property
        · rw [if_pos heq, entryOf_none (heq ▸ hparts.1)]
          show assign state.props entry.property _ property = _
          unfold assign
          rw [if_pos heq.symm, heq]
        · rw [if_neg heq]
          have hsame : (state.patch entry).props property = state.props property :=
            if_neg (fun h => heq h.symm)
          rw [hsame]
      rw [List.foldl_cons, hrest, hmap, hprops, List.append_assoc]
      rfl

/-- Putting back what was replaced, where every property had one value. -/
theorem foldl_assign {list : List (Property × Fn id)} {value : Property -> Fn id}
    (hvalue : forall replaced, replaced ∈ list -> replaced.2 = value replaced.1)
    (props : Property -> Fn id) (property : Property) :
    list.foldl (fun props replaced => assign props replaced.1 replaced.2) props property =
      if property ∈ list.map Prod.fst then value property else props property := by
  induction list generalizing props with
  | nil => rfl
  | cons first rest ih =>
      have hrest := ih (fun replaced hmem => hvalue replaced (List.mem_cons_of_mem first hmem))
        (assign props first.1 first.2)
      rw [List.foldl_cons, hrest, List.map_cons]
      unfold assign
      by_cases hmem : property ∈ rest.map Prod.fst
      · rw [if_pos hmem, if_pos (List.mem_cons_of_mem _ hmem)]
      · rw [if_neg hmem]
        by_cases heq : property = first.1
        · rw [if_pos heq, if_pos (heq ▸ List.mem_cons_self), heq,
            hvalue first List.mem_cons_self]
        · rw [if_neg heq, if_neg (fun h => (List.mem_cons.mp h).elim heq hmem)]

end Patched

variable {available : Property -> Bool} {before : Property -> id}

/-- The state while {lit}`k` is installed: each patched property holds one wrapper over
what it was before. -/
def installedWith (available : Property -> Bool) (before : Property -> id) (k : kappa) :
    Patched kappa id :=
  { kernel := some k
    installed := some ((patches available).map (fun entry =>
      (entry.property, Fn.native (before entry.property))))
    props := wrapped (patches available) (fun property => Fn.native (before property)) }

theorem install_initial (k : kappa) :
    (initial before : Patched kappa id).install available k = installedWith available before k := by
  unfold Patched.install
  rw [if_neg (fun h => by cases h), Patched.foldl_patch (nodup_patches available) _ rfl, List.nil_append]
  rfl

theorem install_installed (k k' : kappa) :
    (installedWith available before k).install available k' = installedWith available before k :=
  if_pos rfl

/-- The originals are back. -/
theorem uninstall_installed (k : kappa) :
    (installedWith available before k).uninstall = initial before := by
  have hvalue : forall replaced : Property × Fn id,
      replaced ∈ ((patches available).map (fun entry =>
        (entry.property, Fn.native (before entry.property)))).reverse ->
      replaced.2 = (fun property => Fn.native (before property)) replaced.1 := by
    intro replaced hmem
    have hmap := List.mem_reverse.mp hmem
    cases List.mem_map.mp hmap with
    | intro entry hentry =>
        rw [← hentry.2]
  have hkeys : ((patches available).map (fun entry =>
      (entry.property, Fn.native (before entry.property)))).map Prod.fst =
      (patches available).map Entry.property := by
    rw [List.map_map]
    rfl
  show ({ kernel := none, installed := none, props := _ } : Patched kappa id) =
    { kernel := none, installed := none, props := _ }
  congr 1
  funext property
  rw [@Patched.foldl_assign id _ (fun property => Fn.native (before property)) hvalue,
    List.map_reverse, hkeys]
  by_cases hmem : property ∈ (patches available).map Entry.property
  · rw [if_pos (List.mem_reverse.mpr hmem)]
  · rw [if_neg (fun h => hmem (List.mem_reverse.mp h))]
    unfold installedWith wrapped
    dsimp only
    rw [entryOf_none hmem]

/-- The kernel that is installed once some steps are made: an install counts only while
none is. -/
def current (slot : Option kappa) : List (Step kappa) -> Option kappa
  | [] => slot
  | Step.install k :: rest => current (some (slot.getD k)) rest
  | Step.uninstall :: rest => current none rest

theorem current_uninstall (slot : Option kappa) (steps : List (Step kappa)) :
    current slot (steps ++ [Step.uninstall]) = none := by
  induction steps generalizing slot with
  | nil => rfl
  | cons step rest ih =>
      cases step with
      | install k => exact ih (some (slot.getD k))
      | uninstall => exact ih none

/-- The state behind a slot. -/
def behind (available : Property -> Bool) (before : Property -> id) :
    Option kappa -> Patched kappa id
  | none => initial before
  | some k => installedWith available before k

theorem behind_kernel (slot : Option kappa) : (behind available before slot).kernel = slot := by
  cases slot with
  | none => rfl
  | some k => rfl

/-- Whatever was installed and uninstalled, the slot tells the state. -/
theorem foldl_behind (slot : Option kappa) (steps : List (Step kappa)) :
    steps.foldl (Step.apply available) (behind available before slot) =
      behind available before (current slot steps) := by
  induction steps generalizing slot with
  | nil => rfl
  | cons step rest ih =>
      rw [List.foldl_cons]
      cases step with
      | install k =>
          have hstep : Step.apply available (behind available before slot) (Step.install k) =
              behind available before (some (slot.getD k)) := by
            cases slot with
            | none => exact install_initial k
            | some k' => exact install_installed k' k
          rw [hstep]
          exact ih (some (slot.getD k))
      | uninstall =>
          have hstep : Step.apply available (behind available before slot) Step.uninstall =
              behind available before none := by
            cases slot with
            | none => rfl
            | some k' => exact uninstall_installed k'
          rw [hstep]
          exact ih none

theorem run_eq (steps : List (Step kappa)) :
    run available before steps = behind available before (current none steps) :=
  foldl_behind none steps

/-!
# References
-/

/-- The function a property holds once some steps are made. -/
def reference (available : Property -> Bool) (before : Property -> id)
    (steps : List (Step kappa)) (property : Property) : Fn id :=
  (run available before steps).props property

/-- One routing under {lit}`k`, and one call of the original when it passes. -/
def routedOnce (passes : kappa -> Property -> List (Arg alpha) -> Bool)
    (before : Property -> id) (k : kappa) (entry : Entry) (receiver : alpha)
    (args : List (Arg alpha)) : List (Event kappa id alpha) :=
  let original := Event.called (before entry.property) receiver (handed entry.variant args)
  if entry.variant.globs then [original, Event.screens]
  else
    Event.routed k entry.property receiver args ::
      if passes k entry.property args then [original] else []

theorem reference_eq (steps : List (Step kappa)) (property : Property) :
    reference available before steps property =
      if (current none steps).isSome then
        wrapped (patches available) (fun property => Fn.native (before property)) property
      else Fn.native (before property) := by
  unfold reference
  rw [run_eq]
  cases current none steps with
  | none => rfl
  | some k => rfl

/-- The original, behind at most one wrapper. -/
theorem call_uninstalled (passes : kappa -> Property -> List (Arg alpha) -> Bool)
    (steps : List (Step kappa)) (property : Property) (receiver : alpha)
    (args : List (Arg alpha)) :
    call passes none (reference available before steps property) receiver args =
      [Event.called (before property) receiver args] := by
  rw [reference_eq]
  cases current none steps with
  | none => rfl
  | some k =>
      rw [if_pos (show (some k).isSome = true from rfl)]
      unfold wrapped
      cases entryOf (patches available) property with
      | none => rfl
      | some entry => rfl

theorem call_installed (passes : kappa -> Property -> List (Arg alpha) -> Bool)
    {steps : List (Step kappa)} (hcaptured : (current none steps).isSome = true) (k : kappa)
    {entry : Entry} (hentry : entry ∈ patches available) (receiver : alpha)
    (args : List (Arg alpha)) :
    call passes (some k) (reference available before steps entry.property) receiver args =
      routedOnce passes before k entry receiver args := by
  have hfound : entryOf (patches available) entry.property = some entry := by
    cases hcases : entryOf (patches available) entry.property with
    | none =>
        have hnone := List.find?_eq_none.mp hcases entry hentry
        exact absurd (decide_eq_true rfl) hnone
    | some other =>
        have hmem : other ∈ patches available := List.mem_of_find?_eq_some hcases
        rw [List.inj_on_of_nodup_map (nodup_patches available) hmem hentry
          (entryOf_property hcases)]
  rw [reference_eq, if_pos hcaptured]
  unfold wrapped
  rw [hfound]
  unfold routedOnce
  show (if entry.variant.globs = true then _ else _) = _
  by_cases hglobs : entry.variant.globs = true
  · rw [if_pos hglobs, if_pos hglobs]
    rfl
  · rw [if_neg hglobs, if_neg hglobs]
    by_cases hpasses : passes k entry.property args = true
    · rw [if_pos hpasses, if_pos hpasses]
      rfl
    · rw [if_neg hpasses, if_neg hpasses]

theorem run_kernel (steps : List (Step kappa)) :
    (run available before steps).kernel = current none steps := by
  rw [run_eq]
  exact behind_kernel _

/-- Every uninstall puts the originals back; a captured reference is the original while
nothing is installed, and routes once through the installed kernel when it was taken as
a wrapper. -/
theorem references_current (available : Property -> Bool) (before : Property -> id)
    (passes : kappa -> Property -> List (Arg alpha) -> Bool)
    (captured later : List (Step kappa)) (receiver : alpha) (args : List (Arg alpha)) :
    (run available before (captured ++ [Step.uninstall])).props =
        (fun property => Fn.native (before property)) ∧
      (current none (captured ++ later) = none -> forall property,
        call passes (run available before (captured ++ later)).kernel
            (reference available before captured property) receiver args =
          [Event.called (before property) receiver args]) ∧
      (forall k, current none (captured ++ later) = some k -> forall entry,
        entry ∈ patches available ->
        ((current none captured).isSome = true ->
          call passes (run available before (captured ++ later)).kernel
              (reference available before captured entry.property) receiver args =
            routedOnce passes before k entry receiver args) ∧
        (current none captured = none ->
          reference available before captured entry.property =
            Fn.native (before entry.property))) := by
  constructor
  · rw [run_eq, current_uninstall]
    rfl
  · constructor
    · intro hnone property
      rw [run_kernel, hnone]
      exact call_uninstalled passes captured property receiver args
    · intro k hk entry hentry
      constructor
      · intro hcaptured
        rw [run_kernel, hk]
        exact call_installed passes hcaptured k hentry receiver args
      · intro hcaptured
        rw [reference_eq, hcaptured]
        rfl

def readFileEntry : Entry := ⟨fsOf "readFile", Variant.callback, none⟩

theorem readFile_patched : readFileEntry ∈ patches (fun _ => true) := by decide +kernel

/-- A wrapper of the first kernel, called under the second. -/
theorem references_current_demo :
    call (fun (_ : Nat) _ (_ : List (Arg Unit)) => true)
        (run (fun _ => true) (fun property => property)
          ([Step.install 1] ++ [Step.uninstall, Step.install 2])).kernel
        (reference (fun _ => true) (fun property => property) [Step.install 1]
          readFileEntry.property) () [] =
      routedOnce (fun _ _ _ => true) (fun property => property) 2 readFileEntry () [] :=
  (((references_current (fun _ => true) (fun property => property) (fun _ _ _ => true)
    [Step.install 1] [Step.uninstall, Step.install 2] () []).2.2 2 rfl readFileEntry
    readFile_patched).1 rfl)

/-!
A reference to {lit}`readFile` taken before the first install is the original function.
-/

theorem reference_taken_early :
    current none ([] ++ [Step.install ()]) = some () ∧
    readFileEntry ∈ patches (fun _ => true) ∧
    call (fun (_ : Unit) _ (_ : List (Arg Unit)) => true)
        (run (fun _ => true) (fun property => property) ([] ++ [Step.install ()])).kernel
        (reference (fun _ => true) (fun property => property) ([] : List (Step Unit))
          readFileEntry.property) () [] ≠
      routedOnce (fun _ _ _ => true) (fun property => property) () readFileEntry () [] := by
  constructor
  · rfl
  · constructor
    · exact readFile_patched
    · intro heq
      cases heq

end FsInstall

end SharedMemoryFs
