import SharedMemoryFs.Cache.Entries
import SharedMemoryFs.Foundation.Hierarchy

/-!
# The projection of a place and its directories

A map from keys to entries together with the implicit directories its source
keys imply, kept on every set and delete.  {lit}`Indexed` is what the directory
index is for: it says of every directory what a scan of the source keys would
say.  Companions are no part of it.
-/

namespace SharedMemoryFs

open Foundation

abbrev Name := Key

def slash : Char := '/'

/-- {lit}`dirs` maps a directory to the names it holds, the place root under the
empty key. -/
structure PlaceFiles (alpha : Type) where
  entries : OrderedMap EntryKey alpha
  dirs : OrderedMap Key (List Name)

namespace PlaceFiles

variable {alpha : Type}

def empty : PlaceFiles alpha := ⟨OrderedMap.empty, OrderedMap.empty⟩

instance : Inhabited (PlaceFiles alpha) := ⟨empty⟩

def get (files : PlaceFiles alpha) (key : EntryKey) : Option alpha := files.entries.get key

def has (files : PlaceFiles alpha) (key : EntryKey) : Bool := files.entries.has key

/-- {lit}`key` names a source of the place. -/
def hasSource (files : PlaceFiles alpha) (key : Key) : Bool :=
  files.has (EntryKey.ofSource key)

/-!
# Keeping the index
-/

/-- {lit}`#name`. -/
def addName (dirs : OrderedMap Key (List Name)) (step : Key × Name) :
    OrderedMap Key (List Name) :=
  match dirs.get step.1 with
  | some names =>
      dirs.set step.1 (if step.2 ∈ names then names else names ++ [step.2])
  | none => dirs.set step.1 [step.2]

/-- {lit}`#link`: every directory above a new source key holds its next name. -/
def link (dirs : OrderedMap Key (List Name)) (key : Key) : OrderedMap Key (List Name) :=
  (trail slash [] [] (key.drop 1)).foldl addName dirs

/-- {lit}`#unlink`, from {lit}`child` upwards: a name leaves its directory once
nothing bears it, and a directory left empty leaves its own. -/
def unlinkWithin (entries : OrderedMap EntryKey alpha) :
    Nat -> OrderedMap Key (List Name) -> Key -> OrderedMap Key (List Name)
  | 0, dirs, _ => dirs
  | fuel + 1, dirs, child =>
      if child = [] ∨ entries.has (EntryKey.ofSource child) ∨ dirs.has child then dirs
      else
        let dir := (splitLast slash child).1
        let name := (splitLast slash child).2
        match dirs.get dir with
        | none => dirs
        | some names =>
            if name ∈ names then
              let rest := names.filter (fun n => decide (n ≠ name))
              if rest = [] then unlinkWithin entries fuel (dirs.delete dir) dir
              else dirs.set dir rest
            else dirs

def unlink (entries : OrderedMap EntryKey alpha) (dirs : OrderedMap Key (List Name))
    (key : Key) : OrderedMap Key (List Name) :=
  unlinkWithin entries key.length dirs key

def set (files : PlaceFiles alpha) (key : EntryKey) (entry : alpha) : PlaceFiles alpha :=
  { entries := files.entries.set key entry
    dirs :=
      if key.isCompanionKey ∨ files.has key then files.dirs
      else link files.dirs key.source }

def delete (files : PlaceFiles alpha) (key : EntryKey) : PlaceFiles alpha :=
  if files.has key then
    { entries := files.entries.delete key
      dirs :=
        if key.isCompanionKey then files.dirs
        else unlink (files.entries.delete key) files.dirs key.source }
  else files

/-!
# Reading the index
-/

/-- A source key lies below {lit}`dir`. -/
def hasDirectory (files : PlaceFiles alpha) (dir : Key) : Bool := files.dirs.has dir

/-- What {lit}`dir` holds directly, each with whether it is a directory. -/
def children (files : PlaceFiles alpha) (dir : Key) : List (Key × Bool) :=
  ((files.dirs.get dir).getD []).flatMap (fun name =>
    let key := dir ++ slash :: name
    (if files.hasSource key then [(key, false)] else []) ++
      (if files.hasDirectory key then [(key, true)] else []))

def belowWithin (files : PlaceFiles alpha) : Nat -> Key -> List (Key × Bool)
  | 0, _ => []
  | fuel + 1, dir =>
      (files.children dir).flatMap (fun child =>
        child :: if child.2 then files.belowWithin fuel child.1 else [])

/-- Longer than every directory of the index. -/
def depth (files : PlaceFiles alpha) : Nat :=
  (files.dirs.keys.map List.length).foldr max 0 + 1

/-- Everything below {lit}`dir`, depth first. -/
def below (files : PlaceFiles alpha) (dir : Key) : List (Key × Bool) :=
  files.belowWithin files.depth dir

/-- The key of a directory: empty for the place root, else a leading slash and
none at the end. -/
def dirOf (key : Key) : Key :=
  let trimmed := (key.reverse.dropWhile (fun c => decide (c = slash))).reverse
  if trimmed = [] ∨ trimmed.head? = some slash then trimmed else slash :: trimmed

/-- {lit}`key` names an implicit directory: the root, or a prefix of a source key. -/
def isDirectory (files : PlaceFiles alpha) (key : Key) : Bool :=
  let dir := dirOf key
  dir.isEmpty || files.hasDirectory dir

/-- Every source key under an implicit directory. -/
def keysUnder (files : PlaceFiles alpha) (dir : Key) : List Key :=
  ((files.below (dirOf dir)).filter (fun child => !child.2)).map Prod.fst

/-!
# Canonical keys
-/

/-- The names of a key, {lit}`key.slice(1).split('/')`. -/
def names (key : Key) : List Name := (trail slash [] [] (key.drop 1)).map Prod.snd

def validName (name : Name) : Bool :=
  decide (name ≠ [] ∧ name ≠ ['.'] ∧ name ≠ ['.', '.'])

/-- {lit}`canonicalKey`: a leading slash, then names. -/
def canonicalKey (key : Key) : Option Key :=
  if sep ∈ key ∨ '\\' ∈ key then none
  else
    let canonical := if key.head? = some slash then key else slash :: key
    if (names canonical).all validName then some canonical else none

/-!
# Entries
-/

@[simp] theorem get_empty (key : EntryKey) : (empty : PlaceFiles alpha).get key = none := rfl

@[simp] theorem get_set (files : PlaceFiles alpha) (key k : EntryKey) (entry : alpha) :
    (files.set key entry).get k = if k = key then some entry else files.get k :=
  files.entries.get_set key k entry

@[simp] theorem get_delete (files : PlaceFiles alpha) (key k : EntryKey) :
    (files.delete key).get k = if k = key then none else files.get k := by
  unfold delete
  by_cases hkey : files.has key = true
  · rw [if_pos hkey]
    exact files.entries.get_delete key k
  · rw [if_neg hkey]
    by_cases hk : k = key
    · rw [if_pos hk, hk]
      exact Option.not_isSome_iff_eq_none.mp hkey
    · rw [if_neg hk]

theorem has_iff {files : PlaceFiles alpha} {key : EntryKey} :
    files.has key = true <-> exists entry, files.get key = some entry :=
  Option.isSome_iff_exists

theorem hasSource_iff {files : PlaceFiles alpha} {key : Key} :
    files.hasSource key = true <->
      exists entry, files.get (EntryKey.ofSource key) = some entry :=
  has_iff

theorem hasSource_eq_false {files : PlaceFiles alpha} {key : Key} :
    files.hasSource key = false <-> files.get (EntryKey.ofSource key) = none :=
  Option.isSome_eq_false_iff.trans Option.isNone_iff_eq_none

theorem ofSource_inj {k l : Key} : EntryKey.ofSource k = EntryKey.ofSource l <-> k = l := by
  constructor
  · intro h
    exact congrArg EntryKey.source h
  · intro h
    rw [h]

/-!
# What the index says
-/

/-- The source keys all begin with a slash. -/
def Rooted (files : PlaceFiles alpha) : Prop :=
  forall key, files.hasSource key = true -> exists rest, key = slash :: rest

/-- {lit}`name` is the next name of a source key below {lit}`dir`. -/
def Holds (sources : Key -> Prop) (dir : Key) (name : Name) : Prop :=
  slash ∉ name ∧ exists key, sources key ∧ Leads slash dir name key

/-- The names {lit}`dirs` lists for a directory, whether or not it lists any. -/
def namesOf (dirs : OrderedMap Key (List Name)) (dir : Key) : List Name :=
  (dirs.get dir).getD []

/-- Directories are listed with names, each of them once. -/
def Listed (dirs : OrderedMap Key (List Name)) : Prop :=
  forall dir names, dirs.get dir = some names -> names ≠ [] ∧ names.Nodup

/-- The index {lit}`dirs` says of the given source keys what a scan of them
would say. -/
structure Indexes (dirs : OrderedMap Key (List Name)) (sources : Key -> Prop) : Prop where
  listed : Listed dirs
  mem : forall dir name, name ∈ namesOf dirs dir <-> Holds sources dir name

def Indexed (files : PlaceFiles alpha) : Prop :=
  Indexes files.dirs (fun key => files.hasSource key = true)

theorem holds_above {sources : Key -> Prop} {dir : Key} {name : Name}
    (h : Holds sources dir name) : exists key, sources key ∧ Above slash dir key := by
  rcases h with ⟨_, key, hkey, hleads⟩
  exact ⟨key, hkey, hleads.above⟩

theorem above_holds {sources : Key -> Prop} {dir key : Key} (hkey : sources key)
    (h : Above slash dir key) : exists name, Holds sources dir name := by
  rcases h.leads with ⟨name, hname, hleads⟩
  exact ⟨name, hname, key, hkey, hleads⟩

theorem get_of_mem_namesOf {dirs : OrderedMap Key (List Name)} {dir : Key} {name : Name}
    (h : name ∈ namesOf dirs dir) : exists names, dirs.get dir = some names ∧ name ∈ names := by
  unfold namesOf at h
  cases hget : dirs.get dir with
  | none =>
      rw [hget] at h
      exact absurd h (by simp)
  | some names =>
      rw [hget] at h
      exact ⟨names, rfl, h⟩

theorem mem_namesOf {dirs : OrderedMap Key (List Name)} {dir : Key} {names : List Name}
    (h : dirs.get dir = some names) (name : Name) :
    name ∈ namesOf dirs dir <-> name ∈ names := by
  rw [namesOf, h, Option.getD_some]

/-- A directory is indexed exactly when a source key lies below it. -/
theorem Indexes.has_iff {dirs : OrderedMap Key (List Name)} {sources : Key -> Prop}
    (h : Indexes dirs sources) (dir : Key) :
    dirs.has dir = true <-> exists key, sources key ∧ Above slash dir key := by
  constructor
  · intro hhas
    rcases Option.isSome_iff_exists.mp hhas with ⟨names, hnames⟩
    rcases List.exists_mem_of_ne_nil names (h.listed dir names hnames).1 with ⟨name, hname⟩
    exact holds_above ((h.mem dir name).mp ((mem_namesOf hnames name).mpr hname))
  · intro hex
    rcases hex with ⟨key, hkey, habove⟩
    rcases above_holds hkey habove with ⟨name, hname⟩
    rcases get_of_mem_namesOf ((h.mem dir name).mpr hname) with ⟨names, hnames, _⟩
    exact Option.isSome_iff_exists.mpr ⟨names, hnames⟩

/-!
# Linking a new source key
-/

theorem get_addName (dirs : OrderedMap Key (List Name)) (step : Key × Name) (dir : Key) :
    (addName dirs step).get dir =
      if dir = step.1 then
        some (match dirs.get step.1 with
          | some names => if step.2 ∈ names then names else names ++ [step.2]
          | none => [step.2])
      else dirs.get dir := by
  unfold addName
  cases hget : dirs.get step.1 with
  | none => exact dirs.get_set step.1 dir _
  | some names => exact dirs.get_set step.1 dir _

theorem addName_listed {dirs : OrderedMap Key (List Name)} (h : Listed dirs)
    (step : Key × Name) : Listed (addName dirs step) := by
  intro dir names hget
  rw [get_addName] at hget
  by_cases hdir : dir = step.1
  · rw [if_pos hdir, Option.some.injEq] at hget
    cases hold : dirs.get step.1 with
    | none =>
        rw [hold] at hget
        rw [← hget]
        exact ⟨List.cons_ne_nil _ _, List.nodup_singleton _⟩
    | some old =>
        rw [hold] at hget
        by_cases hmem : step.2 ∈ old
        · simp only [if_pos hmem] at hget
          rw [← hget]
          exact h _ _ hold
        · simp only [if_neg hmem] at hget
          rw [← hget]
          refine ⟨by simp, ?_⟩
          rw [List.nodup_append]
          refine ⟨(h _ _ hold).2, List.nodup_singleton _, ?_⟩
          intro a ha b hb hab
          rw [hab, List.mem_singleton.mp hb] at ha
          exact hmem ha
  · rw [if_neg hdir] at hget
    exact h dir names hget

theorem mem_namesOf_addName (dirs : OrderedMap Key (List Name)) (step : Key × Name)
    (dir : Key) (name : Name) :
    name ∈ namesOf (addName dirs step) dir <->
      (name ∈ namesOf dirs dir ∨ (dir, name) = step) := by
  unfold namesOf
  rw [get_addName, Prod.ext_iff]
  by_cases hdir : dir = step.1
  · rw [if_pos hdir, hdir, Option.getD_some]
    cases hold : dirs.get step.1 with
    | none => simp
    | some old =>
        by_cases hmem : step.2 ∈ old
        · simp only [if_pos hmem, Option.getD_some, true_and]
          constructor
          · exact Or.inl
          · intro h
            rcases h with h | h
            · exact h
            · rw [h]
              exact hmem
        · simp [hmem]
  · rw [if_neg hdir]
    simp [hdir]

theorem foldl_addName_listed {steps : List (Key × Name)} {dirs : OrderedMap Key (List Name)}
    (h : Listed dirs) : Listed (steps.foldl addName dirs) := by
  induction steps generalizing dirs with
  | nil => exact h
  | cons step rest ih => exact ih (addName_listed h step)

theorem mem_namesOf_foldl {steps : List (Key × Name)} {dirs : OrderedMap Key (List Name)}
    (dir : Key) (name : Name) :
    name ∈ namesOf (steps.foldl addName dirs) dir <->
      (name ∈ namesOf dirs dir ∨ (dir, name) ∈ steps) := by
  induction steps generalizing dirs with
  | nil => simp
  | cons step rest ih =>
      rw [List.foldl_cons, ih, mem_namesOf_addName, List.mem_cons, or_assoc]

/-- The way down to a rooted key names exactly what leads to it. -/
theorem mem_trail_rooted {rest : Key} (dir : Key) (name : Name) :
    (dir, name) ∈ trail slash [] [] rest <->
      (slash ∉ name ∧ Leads slash dir name (slash :: rest)) := by
  rw [mem_trail (by simp)]
  constructor
  · intro h
    exact ⟨h.1, h.2.1⟩
  · intro h
    refine ⟨h.1, h.2, ?_⟩
    rcases h.2.above with ⟨t, ht⟩
    cases dir with
    | nil => exact Or.inl rfl
    | cons c dir =>
        have hc : slash = c := (List.cons.inj ht).1
        exact Or.inr ⟨dir, by rw [← hc]; rfl⟩

theorem link_indexes {dirs : OrderedMap Key (List Name)} {sources : Key -> Prop} {rest : Key}
    (h : Indexes dirs sources) :
    Indexes (link dirs (slash :: rest)) (fun key => sources key ∨ key = slash :: rest) := by
  constructor
  · exact foldl_addName_listed h.listed
  · intro dir name
    rw [link, mem_namesOf_foldl, h.mem, List.drop_one, List.tail_cons, mem_trail_rooted]
    unfold Holds
    constructor
    · intro hmem
      rcases hmem with ⟨hname, key, hkey, hleads⟩ | ⟨hname, hleads⟩
      · exact ⟨hname, key, Or.inl hkey, hleads⟩
      · exact ⟨hname, _, Or.inr rfl, hleads⟩
    · intro hmem
      rcases hmem with ⟨hname, key, hkey | rfl, hleads⟩
      · exact Or.inl ⟨hname, key, hkey, hleads⟩
      · exact Or.inr ⟨hname, hleads⟩

/-!
# Unlinking a source key

While the loop climbs, the index still lists the way down to {lit}`child` besides
what the remaining source keys need.
-/

/-- The index lists what {lit}`sources` need and the way down to {lit}`child`. -/
structure Unlinking (dirs : OrderedMap Key (List Name)) (sources : Key -> Prop)
    (child : Key) : Prop where
  listed : Listed dirs
  mem : forall dir name, name ∈ namesOf dirs dir <->
    (Holds sources dir name ∨ (slash ∉ name ∧ Leads slash dir name child))

namespace Unlinking

variable {dirs : OrderedMap Key (List Name)} {sources : Key -> Prop} {child dir : Key}
  {name : Name}

/-- The climb may stop once a remaining source key needs the same way down. -/
theorem stop (h : Unlinking dirs sources child)
    (hneeded : forall d n, Leads slash d n child ->
      exists key, sources key ∧ Leads slash d n key) :
    Indexes dirs sources := by
  constructor
  · exact h.listed
  · intro d n
    rw [h.mem]
    constructor
    · intro hmem
      rcases hmem with hholds | ⟨hname, hleads⟩
      · exact hholds
      · exact ⟨hname, hneeded d n hleads⟩
    · exact Or.inl

theorem leads_below {d : Key} {n : Name} {key : Key} (h : Leads slash d n child)
    (hbelow : Above slash child key) : Leads slash d n key := by
  rcases h with heq | habove
  · rw [heq] at hbelow
    exact Or.inr hbelow
  · exact Or.inr (habove.trans hbelow)

theorem stop_below (h : Unlinking dirs sources child) {key : Key} (hkey : sources key)
    (hbelow : Above slash child key) : Indexes dirs sources :=
  h.stop (fun _ _ hleads => ⟨key, hkey, leads_below hleads hbelow⟩)

/-- What leads to a child leads to its parent, or is the child's own name there. -/
theorem leads_child_iff (hname : slash ∉ name) {d : Key} {n : Name} :
    (slash ∉ n ∧ Leads slash d n (dir ++ slash :: name)) <->
      ((d, n) = (dir, name) ∨ (slash ∉ n ∧ Leads slash d n dir)) := by
  have hself : Leads slash dir name (dir ++ slash :: name) := Or.inl rfl
  rw [Prod.mk.injEq]
  constructor
  · intro h
    rcases h with ⟨hn, hleads⟩
    have hparent := hleads.above.parent
    rw [splitLast_append hname] at hparent
    rcases hparent with rfl | habove
    · exact Or.inl ⟨rfl, hleads.unique hn hname hself⟩
    · rcases habove.leads with ⟨m, hm, hleads'⟩
      have heq : n = m := hleads.unique hn hm (leads_below hleads' ⟨name, rfl⟩)
      exact Or.inr ⟨hn, heq ▸ hleads'⟩
  · intro h
    rcases h with ⟨rfl, rfl⟩ | ⟨hn, hleads⟩
    · exact ⟨hname, hself⟩
    · exact ⟨hn, leads_below hleads ⟨name, rfl⟩⟩

/-- Taking the child's own name out of its parent leaves the way to the parent. -/
theorem step {dirs' : OrderedMap Key (List Name)}
    (h : Unlinking dirs sources (dir ++ slash :: name)) (hname : slash ∉ name)
    (hunheld : ¬ Holds sources dir name) (hlisted : Listed dirs')
    (hothers : forall d, d ≠ dir -> dirs'.get d = dirs.get d)
    (hdir : forall n, n ∈ namesOf dirs' dir <-> (n ∈ namesOf dirs dir ∧ n ≠ name)) :
    Unlinking dirs' sources dir := by
  constructor
  · exact hlisted
  · intro d n
    by_cases hd : d = dir
    · rw [hd, hdir, h.mem, leads_child_iff hname, Prod.mk.injEq]
      constructor
      · intro hmem
        rcases hmem with ⟨hholds | heq | hleads, hn⟩
        · exact Or.inl hholds
        · exact absurd heq.2 hn
        · exact Or.inr hleads
      · intro hmem
        rcases hmem with hholds | ⟨_, hleads⟩
        · refine ⟨Or.inl hholds, ?_⟩
          intro hn
          rw [hn] at hholds
          exact hunheld hholds
        · exact absurd hleads.above Above.irrefl
    · have hsame : namesOf dirs' d = namesOf dirs d := by
        rw [namesOf, hothers d hd, namesOf]
      rw [hsame, h.mem, leads_child_iff hname, Prod.mk.injEq]
      constructor
      · intro hmem
        rcases hmem with hholds | heq | hleads
        · exact Or.inl hholds
        · exact absurd heq.1 hd
        · exact Or.inr hleads
      · intro hmem
        rcases hmem with hholds | hleads
        · exact Or.inl hholds
        · exact Or.inr (Or.inr hleads)

/-- A directory that still lists a name is needed by a remaining source key. -/
theorem stop_named (h : Unlinking dirs sources child) (hname : name ∈ namesOf dirs child) :
    Indexes dirs sources := by
  rcases (h.mem child name).mp hname with hholds | ⟨_, hleads⟩
  · rcases holds_above hholds with ⟨key, hkey, habove⟩
    exact h.stop_below hkey habove
  · exact absurd hleads.above Above.irrefl

theorem stop_root (h : Unlinking dirs sources []) : Indexes dirs sources := by
  refine h.stop (fun d n hleads => ?_)
  rcases hleads.above with ⟨rest, hrest⟩
  exact absurd hrest (by simp)

/-- Nothing that remains is at or below a child that is neither file nor directory. -/
theorem unheld (h : Unlinking dirs sources (dir ++ slash :: name))
    (hfile : ¬ sources (dir ++ slash :: name))
    (hdirectory : dirs.get (dir ++ slash :: name) = none) : ¬ Holds sources dir name := by
  intro hholds
  rcases hholds with ⟨_, key, hkey, rfl | habove⟩
  · exact hfile hkey
  · rcases above_holds hkey habove with ⟨n, hn⟩
    rcases get_of_mem_namesOf ((h.mem _ n).mpr (Or.inl hn)) with ⟨names, hnames, _⟩
    rw [hdirectory] at hnames
    cases hnames

end Unlinking

theorem mem_remaining {names : List Name} {name n : Name} :
    n ∈ names.filter (fun n => decide (n ≠ name)) <-> (n ∈ names ∧ n ≠ name) := by
  rw [List.mem_filter, decide_eq_true_iff]

theorem listed_delete {dirs : OrderedMap Key (List Name)} (h : Listed dirs) (dir : Key) :
    Listed (dirs.delete dir) := by
  intro d names hget
  rw [OrderedMap.get_delete] at hget
  by_cases hd : d = dir
  · rw [if_pos hd] at hget
    cases hget
  · rw [if_neg hd] at hget
    exact h d names hget

theorem listed_set {dirs : OrderedMap Key (List Name)} (h : Listed dirs) (dir : Key)
    {names : List Name} (hne : names ≠ []) (hnodup : names.Nodup) :
    Listed (dirs.set dir names) := by
  intro d ns hget
  rw [OrderedMap.get_set] at hget
  by_cases hd : d = dir
  · rw [if_pos hd, Option.some.injEq] at hget
    rw [← hget]
    exact ⟨hne, hnodup⟩
  · rw [if_neg hd] at hget
    exact h d ns hget

/-- The key of a file or of an implicit directory. -/
def RootedKey (key : Key) : Prop := key = [] ∨ exists rest, key = slash :: rest

theorem RootedKey.parent {dir : Key} {name : Name} (h : RootedKey (dir ++ slash :: name)) :
    RootedKey dir := by
  cases dir with
  | nil => exact Or.inl rfl
  | cons c dir =>
      rcases h with heq | ⟨rest, heq⟩
      · cases heq
      · exact Or.inr ⟨dir, by rw [(List.cons.inj heq).1]⟩

theorem RootedKey.split {child : Key} (h : RootedKey child) (hne : child ≠ []) :
    exists dir name, slash ∉ name ∧ child = dir ++ slash :: name := by
  rcases h with heq | ⟨rest, heq⟩
  · exact absurd heq hne
  · rw [heq]
    exact exists_last List.mem_cons_self

theorem unlinkWithin_indexes {entries : OrderedMap EntryKey alpha} {sources : Key -> Prop}
    (hentries : forall key, entries.has (EntryKey.ofSource key) = true <-> sources key)
    {fuel : Nat} {dirs : OrderedMap Key (List Name)} {child : Key}
    (h : Unlinking dirs sources child) (hrooted : RootedKey child)
    (hfuel : child.length ≤ fuel) : Indexes (unlinkWithin entries fuel dirs child) sources := by
  induction fuel generalizing dirs child with
  | zero =>
      rw [List.eq_nil_of_length_eq_zero (Nat.le_zero.mp hfuel)] at h
      exact h.stop_root
  | succ fuel ih =>
      unfold unlinkWithin
      by_cases hstop : child = [] ∨ entries.has (EntryKey.ofSource child) ∨ dirs.has child
      · rw [if_pos hstop]
        rcases hstop with rfl | hhas | hhas
        · exact h.stop_root
        · exact h.stop (fun d n hleads => ⟨child, (hentries child).mp hhas, hleads⟩)
        · rcases Option.isSome_iff_exists.mp hhas with ⟨names, hnames⟩
          rcases List.exists_mem_of_ne_nil names (h.listed child names hnames).1
            with ⟨name, hname⟩
          exact h.stop_named ((mem_namesOf hnames name).mpr hname)
      · rw [if_neg hstop]
        rw [not_or, not_or] at hstop
        rcases hstop with ⟨hne, hfile, hdirectory⟩
        rcases hrooted.split hne with ⟨dir, name, hname, rfl⟩
        rw [splitLast_append hname]
        have hself : name ∈ namesOf dirs dir :=
          (h.mem dir name).mpr (Or.inr ⟨hname, Or.inl rfl⟩)
        rcases get_of_mem_namesOf hself with ⟨names, hget, hmem⟩
        have hunheld : ¬ Holds sources dir name :=
          h.unheld (fun hkey => hfile ((hentries _).mpr hkey))
            (Option.not_isSome_iff_eq_none.mp hdirectory)
        simp only [hget, if_pos hmem]
        by_cases hempty : names.filter (fun n => decide (n ≠ name)) = []
        · rw [if_pos hempty]
          apply ih
          · apply h.step hname hunheld (listed_delete h.listed dir)
            · intro d hd
              rw [OrderedMap.get_delete, if_neg hd]
            · intro n
              rw [mem_namesOf hget, ← mem_remaining, hempty, namesOf, OrderedMap.get_delete,
                if_pos rfl, Option.getD_none]
          · exact hrooted.parent
          · rw [List.length_append, List.length_cons] at hfuel
            omega
        · rw [if_neg hempty]
          have hstep : Unlinking
              (dirs.set dir (names.filter (fun n => decide (n ≠ name)))) sources dir := by
            apply h.step hname hunheld
              (listed_set h.listed dir hempty ((h.listed dir names hget).2.filter _))
            · intro d hd
              rw [OrderedMap.get_set, if_neg hd]
            · intro n
              rw [mem_namesOf hget, ← mem_remaining,
                mem_namesOf ((OrderedMap.get_set _ _ _ _).trans (if_pos rfl))]
          rcases List.exists_mem_of_ne_nil _ hempty with ⟨other, hother⟩
          exact hstep.stop_named
            ((mem_namesOf ((OrderedMap.get_set _ _ _ _).trans (if_pos rfl)) other).mpr hother)

/-!
# The operations keep the index
-/

theorem hasSource_set (files : PlaceFiles alpha) (key : EntryKey) (entry : alpha) (k : Key) :
    (files.set key entry).hasSource k = true <->
      (EntryKey.ofSource k = key ∨ files.hasSource k = true) := by
  rw [hasSource_iff, get_set, hasSource_iff]
  by_cases hk : EntryKey.ofSource k = key
  · rw [if_pos hk]
    exact ⟨fun _ => Or.inl hk, fun _ => ⟨entry, rfl⟩⟩
  · rw [if_neg hk]
    constructor
    · exact Or.inr
    · intro h
      rcases h with h | h
      · exact absurd h hk
      · exact h

theorem hasSource_delete (files : PlaceFiles alpha) (key : EntryKey) (k : Key) :
    (files.delete key).hasSource k = true <->
      (EntryKey.ofSource k ≠ key ∧ files.hasSource k = true) := by
  rw [hasSource_iff, get_delete, hasSource_iff]
  by_cases hk : EntryKey.ofSource k = key
  · rw [if_pos hk]
    constructor
    · intro h
      rcases h with ⟨entry, hentry⟩
      cases hentry
    · intro h
      exact absurd hk h.1
  · rw [if_neg hk]
    exact ⟨fun h => ⟨hk, h⟩, fun h => h.2⟩

theorem ofSource_ne_companion {key : EntryKey} (h : key.isCompanionKey = true) (k : Key) :
    EntryKey.ofSource k ≠ key := by
  intro heq
  rw [← heq] at h
  cases h

theorem eq_ofSource {key : EntryKey} (h : ¬ key.isCompanionKey = true) :
    key = EntryKey.ofSource key.source := by
  rcases key with ⟨source, flavor⟩
  cases flavor with
  | none => rfl
  | some flavor => exact absurd rfl h

/-- An index of one set of keys is an index of any set with the same members. -/
theorem Indexes.congr {dirs : OrderedMap Key (List Name)} {sources sources' : Key -> Prop}
    (h : Indexes dirs sources) (heq : forall key, sources key <-> sources' key) :
    Indexes dirs sources' :=
  (funext (fun key => propext (heq key)) : sources = sources') ▸ h

theorem empty_indexed : (empty : PlaceFiles alpha).Indexed := by
  constructor
  · intro dir names hget
    cases hget
  · intro dir name
    constructor
    · intro hmem
      cases hmem
    · intro hholds
      rcases hholds with ⟨_, key, hkey, _⟩
      cases hkey

theorem empty_rooted : (empty : PlaceFiles alpha).Rooted := by
  intro key hkey
  cases hkey

theorem set_indexed {files : PlaceFiles alpha} (h : files.Indexed) (key : EntryKey)
    (entry : alpha) (hrooted : exists rest, key.source = slash :: rest) :
    (files.set key entry).Indexed := by
  by_cases hold : key.isCompanionKey = true ∨ files.has key = true
  · have hdirs : (files.set key entry).dirs = files.dirs := if_pos hold
    unfold Indexed
    rw [hdirs]
    refine h.congr (fun k => ?_)
    rw [hasSource_set]
    constructor
    · exact Or.inr
    · intro hk
      rcases hk with hk | hk
      · rcases hold with hcompanion | hhas
        · exact absurd hk (ofSource_ne_companion hcompanion k)
        · rw [← hk] at hhas
          exact hhas
      · exact hk
  · have hdirs : (files.set key entry).dirs = link files.dirs key.source := if_neg hold
    rcases hrooted with ⟨rest, hrest⟩
    unfold Indexed
    rw [hdirs, hrest]
    refine (link_indexes h).congr (fun k => ?_)
    rw [hasSource_set, eq_ofSource (fun hc => hold (Or.inl hc)), ofSource_inj, hrest]
    exact or_comm

theorem set_rooted {files : PlaceFiles alpha} (h : files.Rooted) (key : EntryKey)
    (entry : alpha) (hrooted : exists rest, key.source = slash :: rest) :
    (files.set key entry).Rooted := by
  intro k hk
  rw [hasSource_set] at hk
  rcases hk with hk | hk
  · rw [← hk] at hrooted
    exact hrooted
  · exact h k hk

theorem delete_indexed {files : PlaceFiles alpha} (h : files.Indexed) (hrooted : files.Rooted)
    (key : EntryKey) : (files.delete key).Indexed := by
  by_cases hhas : files.has key = true
  · have hentries : (files.delete key).entries = files.entries.delete key := by
      rw [delete, if_pos hhas]
    by_cases hcompanion : key.isCompanionKey = true
    · have hdirs : (files.delete key).dirs = files.dirs := by
        rw [delete, if_pos hhas]
        exact if_pos hcompanion
      unfold Indexed
      rw [hdirs]
      refine h.congr (fun k => ?_)
      rw [hasSource_delete]
      exact ⟨fun hk => ⟨ofSource_ne_companion hcompanion k, hk⟩, fun hk => hk.2⟩
    · have hdirs : (files.delete key).dirs =
          unlink (files.entries.delete key) files.dirs key.source := by
        rw [delete, if_pos hhas]
        exact if_neg hcompanion
      have hsource : files.hasSource key.source = true := by
        rw [eq_ofSource hcompanion] at hhas
        exact hhas
      unfold Indexed
      rw [hdirs]
      refine unlinkWithin_indexes (fun k => ?_) ?_ (Or.inr (hrooted _ hsource)) (Nat.le_refl _)
      · rw [← hentries]
        exact Iff.rfl
      · constructor
        · exact h.listed
        · intro dir name
          rw [h.mem]
          constructor
          · intro hholds
            rcases hholds with ⟨hname, k, hk, hleads⟩
            by_cases heq : k = key.source
            · rw [heq] at hleads
              exact Or.inr ⟨hname, hleads⟩
            · refine Or.inl ⟨hname, k, (hasSource_delete _ _ _).mpr ⟨?_, hk⟩, hleads⟩
              intro hk'
              exact heq (congrArg EntryKey.source hk')
          · intro hcases
            rcases hcases with ⟨hname, k, hk, hleads⟩ | ⟨hname, hleads⟩
            · exact ⟨hname, k, ((hasSource_delete _ _ _).mp hk).2, hleads⟩
            · exact ⟨hname, _, hsource, hleads⟩
  · rw [delete, if_neg hhas]
    exact h

theorem delete_rooted {files : PlaceFiles alpha} (h : files.Rooted) (key : EntryKey) :
    (files.delete key).Rooted := by
  intro k hk
  exact h k ((hasSource_delete _ _ _).mp hk).2

/-!
# What a reader of the index sees
-/

/-- A source below a directory, or a directory below it. -/
def Below (files : PlaceFiles alpha) (dir : Key) (child : Key × Bool) : Prop :=
  Above slash dir child.1 ∧
    (if child.2 then files.hasDirectory child.1 else files.hasSource child.1) = true

theorem hasDirectory_iff {files : PlaceFiles alpha} (h : files.Indexed) (dir : Key) :
    files.hasDirectory dir = true <->
      exists key, files.hasSource key = true ∧ Above slash dir key :=
  h.has_iff dir

theorem mem_children {files : PlaceFiles alpha} (h : files.Indexed) (dir : Key)
    (child : Key × Bool) :
    child ∈ files.children dir <->
      exists name, slash ∉ name ∧ child.1 = dir ++ slash :: name ∧ files.Below dir child := by
  have hnamed : forall name, name ∈ (files.dirs.get dir).getD [] <->
      Holds (fun key => files.hasSource key = true) dir name := h.mem dir
  rcases child with ⟨key, isDir⟩
  unfold children
  rw [List.mem_flatMap]
  constructor
  · intro hex
    rcases hex with ⟨name, hname, hmem⟩
    have hslash := ((hnamed name).mp hname).1
    rcases List.mem_append.mp hmem with hfile | hdirectory
    · split_ifs at hfile with hhas
      · rw [List.mem_singleton.mp hfile]
        exact ⟨name, hslash, rfl, ⟨name, rfl⟩, hhas⟩
      · cases hfile
    · split_ifs at hdirectory with hhas
      · rw [List.mem_singleton.mp hdirectory]
        exact ⟨name, hslash, rfl, ⟨name, rfl⟩, hhas⟩
      · cases hdirectory
  · intro hex
    rcases hex with ⟨name, hslash, hkey, habove, hhas⟩
    have hkey' : key = dir ++ slash :: name := hkey
    subst hkey'
    cases isDir with
    | false =>
        have hsource : files.hasSource (dir ++ slash :: name) = true := hhas
        refine ⟨name, (hnamed name).mpr ⟨hslash, _, hsource, Or.inl rfl⟩, ?_⟩
        exact List.mem_append_left _ (by rw [if_pos hsource]; exact List.mem_singleton.mpr rfl)
    | true =>
        have hdirectory : files.hasDirectory (dir ++ slash :: name) = true := hhas
        rcases (hasDirectory_iff h _).mp hdirectory with ⟨k, hk, hbelow⟩
        refine ⟨name, (hnamed name).mpr ⟨hslash, k, hk, Or.inr hbelow⟩, ?_⟩
        exact List.mem_append_right _
          (by rw [if_pos hdirectory]; exact List.mem_singleton.mpr rfl)

theorem length_lt_depth {files : PlaceFiles alpha} {dir : Key}
    (h : files.hasDirectory dir = true) : dir.length < files.depth := by
  rcases Option.isSome_iff_exists.mp h with ⟨names, hnames⟩
  have hmem : dir ∈ files.dirs.keys := OrderedMap.mem_keys_iff.mpr ⟨names, hnames⟩
  have hle : forall {xs : List Key}, dir ∈ xs ->
      dir.length ≤ (xs.map List.length).foldr max 0 := by
    intro xs hdir
    induction xs with
    | nil => cases hdir
    | cons x xs ih =>
        rw [List.map_cons, List.foldr_cons]
        rcases List.mem_cons.mp hdir with rfl | hrest
        · exact Nat.le_max_left _ _
        · exact Nat.le_trans (ih hrest) (Nat.le_max_right _ _)
  exact Nat.lt_succ_of_le (hle hmem)

theorem mem_belowWithin {files : PlaceFiles alpha} (h : files.Indexed) {fuel : Nat} {dir : Key}
    (hfuel : forall d, files.hasDirectory d = true -> d.length < dir.length + fuel)
    (child : Key × Bool) :
    child ∈ files.belowWithin fuel dir <-> files.Below dir child := by
  induction fuel generalizing dir with
  | zero =>
      constructor
      · intro hmem
        cases hmem
      · intro hbelow
        have hsource : exists key, files.hasSource key = true ∧ Above slash dir key := by
          rcases child with ⟨key, isDir⟩
          cases isDir with
          | false => exact ⟨key, hbelow.2, hbelow.1⟩
          | true =>
              rcases (hasDirectory_iff h key).mp hbelow.2 with ⟨k, hk, habove⟩
              exact ⟨k, hk, hbelow.1.trans habove⟩
        have hlt := hfuel dir ((hasDirectory_iff h dir).mpr hsource)
        exact absurd hlt (by omega)
  | succ fuel ih =>
      have hdeeper : forall {name : Name}, forall d, files.hasDirectory d = true ->
          d.length < (dir ++ slash :: name).length + fuel := by
        intro name d hd
        have hlt := hfuel d hd
        rw [List.length_append, List.length_cons]
        omega
      rw [belowWithin, List.mem_flatMap]
      constructor
      · intro hex
        rcases hex with ⟨c, hc, hmem⟩
        rcases (mem_children h dir c).mp hc with ⟨name, _, hkey, hbelow⟩
        rcases List.mem_cons.mp hmem with rfl | hmem
        · exact hbelow
        · split_ifs at hmem with hisDir
          · rw [hkey, ih hdeeper] at hmem
            have hdir : Above slash dir (dir ++ slash :: name) := ⟨name, rfl⟩
            exact ⟨hdir.trans hmem.1, hmem.2⟩
          · cases hmem
      · intro hbelow
        rcases hbelow.1.leads with ⟨name, hname, hself | hdeep⟩
        · exact ⟨child, (mem_children h dir child).mpr ⟨name, hname, hself, hbelow⟩,
            List.mem_cons_self⟩
        · have hdirectory : files.hasDirectory (dir ++ slash :: name) = true := by
            rw [hasDirectory_iff h]
            rcases child with ⟨key, isDir⟩
            cases isDir with
            | false => exact ⟨key, hbelow.2, hdeep⟩
            | true =>
                rcases (hasDirectory_iff h key).mp hbelow.2 with ⟨k, hk, habove⟩
                exact ⟨k, hk, hdeep.trans habove⟩
          refine ⟨(dir ++ slash :: name, true), ?_, List.mem_cons_of_mem _ ?_⟩
          · exact (mem_children h dir _).mpr ⟨name, hname, rfl, ⟨name, rfl⟩, hdirectory⟩
          · rw [if_pos rfl, ih hdeeper]
            exact ⟨hdeep, hbelow.2⟩

/-- Whatever the index says, a walk down from a directory stays below it. -/
theorem mem_belowWithin_above (files : PlaceFiles alpha) (fuel : Nat) (dir : Key)
    {child : Key × Bool} (h : child ∈ files.belowWithin fuel dir) :
    Above slash dir child.1 := by
  induction fuel generalizing dir with
  | zero => cases h
  | succ fuel ih =>
      rcases List.mem_flatMap.mp h with ⟨first, hfirst, hchild⟩
      have hfirstAbove : Above slash dir first.1 := by
        rcases List.mem_flatMap.mp hfirst with ⟨name, _, hname⟩
        rcases List.mem_append.mp hname with hfile | hdirectory
        · split_ifs at hfile
          · rw [List.mem_singleton.mp hfile]
            exact ⟨name, rfl⟩
          · cases hfile
        · split_ifs at hdirectory
          · rw [List.mem_singleton.mp hdirectory]
            exact ⟨name, rfl⟩
          · cases hdirectory
      rcases List.mem_cons.mp hchild with heq | hbelow
      · rw [heq]
        exact hfirstAbove
      · split_ifs at hbelow
        · exact hfirstAbove.trans (ih first.1 hbelow)
        · cases hbelow

/-- {lit}`below` yields every source key and every directory below {lit}`dir`. -/
theorem mem_below {files : PlaceFiles alpha} (h : files.Indexed) (dir : Key)
    (child : Key × Bool) : child ∈ files.below dir <-> files.Below dir child := by
  apply mem_belowWithin h
  intro d hd
  exact Nat.lt_of_lt_of_le (length_lt_depth hd) (Nat.le_add_left _ _)

/-- A key of a file or directory with no slash at its end. -/
def Plain (key : Key) : Prop := (exists rest, key = slash :: rest) ∧ key.getLast? ≠ some slash

theorem canonicalKey_plain {key canonical : Key} (h : canonicalKey key = some canonical) :
    Plain canonical := by
  have hvalid : forall {k : Key}, k.head? = some slash -> (names k).all validName = true ->
      Plain k := by
    intro k hhead hall
    rcases List.head?_eq_some_iff.mp hhead with ⟨rest, rfl⟩
    refine ⟨⟨rest, rfl⟩, ?_⟩
    intro hlast
    rcases List.getLast?_eq_some_iff.mp hlast with ⟨dir, hdir⟩
    have hmem : (dir, []) ∈ trail slash [] [] rest :=
      (mem_trail_rooted dir []).mpr ⟨List.not_mem_nil, Or.inl hdir⟩
    have hnil : ([] : Name) ∈ names (slash :: rest) := List.mem_map.mpr ⟨_, hmem, rfl⟩
    have := List.all_eq_true.mp hall [] hnil
    cases this
  have hchecked : forall {k : Key}, k.head? = some slash ->
      (if (names k).all validName = true then some k else none) = some canonical ->
      Plain canonical := by
    intro k hhead hk
    by_cases hall : (names k).all validName = true
    · rw [if_pos hall] at hk
      rw [← Option.some.inj hk]
      exact hvalid hhead hall
    · rw [if_neg hall] at hk
      cases hk
  unfold canonicalKey at h
  by_cases hchars : sep ∈ key ∨ '\\' ∈ key
  · rw [if_pos hchars] at h
    cases h
  · rw [if_neg hchars] at h
    by_cases hhead : key.head? = some slash
    · simp only [if_pos hhead] at h
      exact hchecked hhead h
    · simp only [if_neg hhead] at h
      exact hchecked rfl h

theorem dirOf_plain {key : Key} (h : Plain key) : dirOf key = key := by
  rcases h.1 with ⟨rest, hrest⟩
  have htrim : (key.reverse.dropWhile (fun c => decide (c = slash))).reverse = key := by
    rcases hrev : key.reverse with _ | ⟨c, cs⟩
    · rw [List.reverse_eq_nil_iff.mp hrev]
      rfl
    · have hc : c ≠ slash := by
        intro heq
        apply h.2
        rw [← List.head?_reverse, hrev, heq]
        rfl
      rw [List.dropWhile_cons_of_neg (by simpa using hc), ← hrev, List.reverse_reverse]
  unfold dirOf
  rw [htrim]
  simp [hrest]

theorem isDirectory_iff {files : PlaceFiles alpha} (h : files.Indexed) {key : Key}
    (hkey : Plain key) :
    files.isDirectory key = true <->
      exists k, files.hasSource k = true ∧ Above slash key k := by
  have hne : key ≠ [] := by
    rcases hkey.1 with ⟨rest, hrest⟩
    rw [hrest]
    exact List.cons_ne_nil _ _
  unfold isDirectory
  rw [dirOf_plain hkey, Bool.or_eq_true, hasDirectory_iff h, List.isEmpty_iff]
  constructor
  · intro hor
    rcases hor with heq | hex
    · exact absurd heq hne
    · exact hex
  · exact Or.inr

theorem mem_keysUnder {files : PlaceFiles alpha} (h : files.Indexed) {dir : Key}
    (hdir : Plain dir) (key : Key) :
    key ∈ files.keysUnder dir <-> files.hasSource key = true ∧ Above slash dir key := by
  unfold keysUnder
  rw [dirOf_plain hdir, List.mem_map]
  constructor
  · intro hex
    rcases hex with ⟨⟨k, isDir⟩, hmem, heq⟩
    rw [List.mem_filter, mem_below h] at hmem
    have hfile : isDir = false := by simpa using hmem.2
    rw [hfile] at hmem
    have hk : k = key := heq
    rw [← hk]
    exact ⟨hmem.1.2, hmem.1.1⟩
  · intro hkey
    refine ⟨(key, false), ?_, rfl⟩
    rw [List.mem_filter, mem_below h]
    exact ⟨⟨hkey.2, hkey.1⟩, rfl⟩

end PlaceFiles

end SharedMemoryFs
