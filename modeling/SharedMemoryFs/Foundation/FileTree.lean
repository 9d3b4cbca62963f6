import SharedMemoryFs.Foundation.PosixPath

/-!
# Trees of files and symbolic links

A file system as a tree of directories whose leaves are files, symbolic links and
special files.  A place in it is the list of names that leads there.  A walk along a
path goes through the links it meets, and ends when they are too many.
-/

namespace SharedMemoryFs
namespace Foundation

abbrev Loc := List PosixPath.Text

inductive Node (beta : Type) where
  | file (content : beta)
  | directory (entries : List (PosixPath.Text × Node beta))
  | link (target : PosixPath.Text)
  | special

namespace Node

variable {beta : Type}

def isDirectory : Node beta -> Bool
  | directory _ => true
  | _ => false

def isFile : Node beta -> Bool
  | file _ => true
  | _ => false

def isLink : Node beta -> Bool
  | link _ => true
  | _ => false

/-- The entry of a directory under a name. -/
def entry (name : PosixPath.Text) : Node beta -> Option (Node beta)
  | directory entries => entries.lookup name
  | _ => none

/-- What lies at a place, reached through directories only. -/
def get (root : Node beta) : Loc -> Option (Node beta)
  | [] => some root
  | name :: rest => (root.entry name).bind (fun node => node.get rest)

theorem get_append (root : Node beta) (dir rest : Loc) :
    root.get (dir ++ rest) = (root.get dir).bind (fun node => node.get rest) := by
  induction dir generalizing root with
  | nil => rfl
  | cons name tail ih =>
      show (root.entry name).bind (fun node => node.get (tail ++ rest)) =
        ((root.entry name).bind (fun node => node.get tail)).bind (fun node => node.get rest)
      cases root.entry name with
      | none => rfl
      | some node => exact ih node

theorem isDirectory_of_entry {node child : Node beta} {name : PosixPath.Text}
    (h : node.entry name = some child) : node.isDirectory = true := by
  cases node with
  | directory entries => rfl
  | file content => cases h
  | link target => cases h
  | special => cases h

/-- Whatever lies below a place lies in a directory. -/
theorem get_cons {root node : Node beta} {dir rest : Loc} {name : PosixPath.Text}
    (h : root.get (dir ++ name :: rest) = some node) :
    exists parent child, root.get dir = some parent ∧ parent.isDirectory = true ∧
      root.get (dir ++ [name]) = some child ∧ child.get rest = some node := by
  rw [get_append] at h
  rcases Option.bind_eq_some_iff.mp h with ⟨parent, hparent, hrest⟩
  rcases Option.bind_eq_some_iff.mp hrest with ⟨child, hchild, hnode⟩
  have hget : root.get (dir ++ [name]) = some child := by
    rw [get_append, hparent]
    show (parent.entry name).bind (fun node => some node) = some child
    rw [hchild]
    rfl
  exact ⟨parent, child, hparent, isDirectory_of_entry hchild, hget, hnode⟩

/-!
# Proper trees
-/

mutual

/-- The names in each directory are distinct, and such as a path can hold. -/
def proper : Node beta -> Bool
  | directory entries =>
      decide (entries.map Prod.fst).Nodup &&
        entries.all (fun entry => decide (PosixPath.Plain entry.1)) && properIn entries
  | file _ => true
  | link _ => true
  | special => true

def properIn : List (PosixPath.Text × Node beta) -> Bool
  | [] => true
  | (_, node) :: rest => node.proper && properIn rest

end

theorem proper_directory {entries : List (PosixPath.Text × Node beta)} :
    (directory entries).proper = true <->
      (entries.map Prod.fst).Nodup ∧ (forall entry, entry ∈ entries -> PosixPath.Plain entry.1) ∧
        properIn entries = true := by
  unfold proper
  rw [Bool.and_eq_true, Bool.and_eq_true, decide_eq_true_iff, List.all_eq_true, and_assoc]
  constructor
  · intro h
    exact ⟨h.1, fun entry hmem => of_decide_eq_true (h.2.1 entry hmem), h.2.2⟩
  · intro h
    exact ⟨h.1, fun entry hmem => decide_eq_true (h.2.1 entry hmem), h.2.2⟩

theorem properIn_iff {entries : List (PosixPath.Text × Node beta)} :
    properIn entries = true <-> forall entry, entry ∈ entries -> entry.2.proper = true := by
  induction entries with
  | nil =>
      constructor
      · intro _ entry hmem
        cases hmem
      · intro _
        rfl
  | cons first rest ih =>
      rcases first with ⟨name, node⟩
      unfold properIn
      rw [Bool.and_eq_true, ih, List.forall_mem_cons]

theorem mem_of_lookup {entries : List (PosixPath.Text × Node beta)} {name : PosixPath.Text}
    {node : Node beta} (h : entries.lookup name = some node) : (name, node) ∈ entries := by
  rcases List.lookup_eq_some_iff.mp h with ⟨before, after, heq, _⟩
  rw [heq]
  exact List.mem_append_right before List.mem_cons_self

theorem lookup_of_mem {entries : List (PosixPath.Text × Node beta)}
    (hnodup : (entries.map Prod.fst).Nodup) {name : PosixPath.Text} {node : Node beta}
    (h : (name, node) ∈ entries) : entries.lookup name = some node := by
  induction entries with
  | nil => cases h
  | cons first rest ih =>
      rcases first with ⟨other, child⟩
      rcases List.nodup_cons.mp hnodup with ⟨hnotMem, hrest⟩
      rcases List.mem_cons.mp h with heq | hmem
      · cases heq
        exact List.lookup_cons_self
      · have hne : name ≠ other := by
          intro heq
          rw [heq] at hmem
          exact hnotMem (List.mem_map.mpr ⟨_, hmem, rfl⟩)
        rw [List.lookup_cons, beq_false_of_ne hne]
        exact ih hrest hmem

theorem proper_entry {node child : Node beta} (h : node.proper = true) {name : PosixPath.Text}
    (hentry : node.entry name = some child) :
    child.proper = true ∧ PosixPath.Plain name := by
  cases node with
  | directory entries =>
      rcases proper_directory.mp h with ⟨_, hplain, hproper⟩
      have hmem := mem_of_lookup hentry
      exact ⟨properIn_iff.mp hproper _ hmem, hplain _ hmem⟩
  | file content => cases hentry
  | link target => cases hentry
  | special => cases hentry

theorem proper_get {root node : Node beta} (h : root.proper = true) {loc : Loc}
    (hget : root.get loc = some node) :
    node.proper = true ∧ forall name, name ∈ loc -> PosixPath.Plain name := by
  induction loc generalizing root with
  | nil =>
      cases hget
      exact ⟨h, fun name hmem => by cases hmem⟩
  | cons name rest ih =>
      rcases Option.bind_eq_some_iff.mp hget with ⟨child, hentry, hrest⟩
      rcases proper_entry h hentry with ⟨hchild, hname⟩
      rcases ih hchild hrest with ⟨hnode, hnames⟩
      exact ⟨hnode, List.forall_mem_cons.mpr ⟨hname, hnames⟩⟩

/-!
# Everything below a directory
-/

mutual

/-- What is no directory, depth first, each with the names that lead to it. -/
def leaves : Node beta -> List (Loc × Node beta)
  | directory entries => leavesIn entries
  | file content => [([], file content)]
  | link target => [([], link target)]
  | special => [([], special)]

def leavesIn : List (PosixPath.Text × Node beta) -> List (Loc × Node beta)
  | [] => []
  | (name, node) :: rest =>
      node.leaves.map (fun leaf => (name :: leaf.1, leaf.2)) ++ leavesIn rest

end

theorem leaves_of_leaf {node : Node beta} (h : node.isDirectory = false) :
    node.leaves = [([], node)] := by
  cases node with
  | directory entries => cases h
  | file content => rfl
  | link target => rfl
  | special => rfl

theorem get_of_leaf {node leaf : Node beta} (h : node.isDirectory = false) {loc : Loc}
    (hget : node.get loc = some leaf) : loc = [] ∧ leaf = node := by
  cases loc with
  | nil =>
      cases hget
      exact ⟨rfl, rfl⟩
  | cons name rest =>
      rcases Option.bind_eq_some_iff.mp hget with ⟨child, hentry, _⟩
      rw [isDirectory_of_entry hentry] at h
      cases h

theorem mem_leaf {node leaf : Node beta} (h : node.isDirectory = false) {loc : Loc} :
    (loc, leaf) ∈ node.leaves <-> node.get loc = some leaf ∧ leaf.isDirectory = false := by
  rw [leaves_of_leaf h, List.mem_singleton]
  constructor
  · intro heq
    cases heq
    exact ⟨rfl, h⟩
  · intro hget
    rcases get_of_leaf h hget.1 with ⟨hloc, hleaf⟩
    rw [hloc, hleaf]

/-- The leaves of a directory, when those of its entries are known. -/
theorem mem_leavesIn {entries : List (PosixPath.Text × Node beta)}
    (hnodup : (entries.map Prod.fst).Nodup)
    (h : forall entry, entry ∈ entries -> forall loc leaf,
      (loc, leaf) ∈ entry.2.leaves <->
        entry.2.get loc = some leaf ∧ leaf.isDirectory = false)
    {loc : Loc} {leaf : Node beta} :
    (loc, leaf) ∈ leavesIn entries <->
      exists name rest child, loc = name :: rest ∧ entries.lookup name = some child ∧
        child.get rest = some leaf ∧ leaf.isDirectory = false := by
  induction entries with
  | nil =>
      constructor
      · intro hmem
        cases hmem
      · intro hex
        rcases hex with ⟨name, rest, child, _, hlookup, _⟩
        cases hlookup
  | cons first others ih =>
      rcases first with ⟨name, node⟩
      rcases List.nodup_cons.mp hnodup with ⟨hnotMem, hothers⟩
      have hnode := h (name, node) List.mem_cons_self
      have hmore := ih hothers (fun entry hmem => h entry (List.mem_cons_of_mem _ hmem))
      show (loc, leaf) ∈ node.leaves.map (fun leaf => (name :: leaf.1, leaf.2)) ++
        leavesIn others <-> _
      rw [List.mem_append, hmore, List.mem_map]
      constructor
      · intro hor
        cases hor with
        | inl hfirst =>
            rcases hfirst with ⟨⟨rest, found⟩, hmem, heq⟩
            cases heq
            rcases (hnode rest found).mp hmem with ⟨hget, hleaf⟩
            exact ⟨name, rest, node, rfl, List.lookup_cons_self, hget, hleaf⟩
        | inr hrest =>
            rcases hrest with ⟨other, rest, child, hloc, hlookup, hget⟩
            have hne : other ≠ name := by
              intro heq
              rw [heq] at hlookup
              exact hnotMem (List.mem_map.mpr ⟨_, mem_of_lookup hlookup, rfl⟩)
            have hskip : ((name, node) :: others).lookup other = some child := by
              rw [List.lookup_cons, beq_false_of_ne hne]
              exact hlookup
            exact ⟨other, rest, child, hloc, hskip, hget⟩
      · intro hex
        rcases hex with ⟨other, rest, child, hloc, hlookup, hget, hleaf⟩
        by_cases heq : other = name
        · left
          rw [heq, List.lookup_cons_self] at hlookup
          cases hlookup
          refine ⟨(rest, leaf), (hnode rest leaf).mpr ⟨hget, hleaf⟩, ?_⟩
          rw [hloc, heq]
        · right
          rw [List.lookup_cons, beq_false_of_ne heq] at hlookup
          exact ⟨other, rest, child, hloc, hlookup, hget, hleaf⟩

theorem mem_leaves {node : Node beta} (h : node.proper = true) (loc : Loc)
    (leaf : Node beta) :
    (loc, leaf) ∈ node.leaves <-> node.get loc = some leaf ∧ leaf.isDirectory = false := by
  induction hsize : sizeOf node using Nat.strong_induction_on generalizing node loc leaf with
  | _ size ih =>
      cases node with
      | directory entries =>
          rcases proper_directory.mp h with ⟨hnodup, _, hproper⟩
          have hentries : forall entry, entry ∈ entries -> forall loc leaf,
              (loc, leaf) ∈ entry.2.leaves <->
                entry.2.get loc = some leaf ∧ leaf.isDirectory = false := by
            intro entry hmem loc leaf
            have hlt : sizeOf entry.2 < size := by
              have hentry := List.sizeOf_lt_of_mem hmem
              rw [← hsize]
              cases entry with
              | mk name child =>
                  simp only [Prod.mk.sizeOf_spec] at hentry
                  simp only [directory.sizeOf_spec]
                  omega
            exact ih _ hlt (properIn_iff.mp hproper entry hmem) loc leaf rfl
          show (loc, leaf) ∈ leavesIn entries <-> _
          rw [mem_leavesIn hnodup hentries]
          constructor
          · intro hex
            rcases hex with ⟨name, rest, child, heq, hlookup, hget, hleaf⟩
            rw [heq]
            constructor
            · show (entries.lookup name).bind (fun node => node.get rest) = some leaf
              rw [hlookup]
              exact hget
            · exact hleaf
          · intro hget
            cases loc with
            | nil =>
                cases hget.1
                cases hget.2
            | cons name rest =>
                rcases Option.bind_eq_some_iff.mp hget.1 with ⟨child, hentry, hrest⟩
                exact ⟨name, rest, child, rfl, hentry, hrest, hget.2⟩
      | file content => exact mem_leaf rfl
      | link target => exact mem_leaf rfl
      | special => exact mem_leaf rfl

mutual

/-- All that lies below a directory, each with the names that lead to it. -/
def beneath : Node beta -> List (Loc × Node beta)
  | directory entries => beneathIn entries
  | file _ => []
  | link _ => []
  | special => []

def beneathIn : List (PosixPath.Text × Node beta) -> List (Loc × Node beta)
  | [] => []
  | (name, node) :: rest =>
      (([name], node) :: node.beneath.map (fun found => (name :: found.1, found.2))) ++ beneathIn rest

end

/-- What lies below a directory, when it is known of its entries. -/
theorem mem_beneathIn {entries : List (PosixPath.Text × Node beta)}
    (hnodup : (entries.map Prod.fst).Nodup)
    (h : forall entry, entry ∈ entries -> forall loc found,
      (loc, found) ∈ entry.2.beneath <-> loc ≠ [] ∧ entry.2.get loc = some found)
    {loc : Loc} {found : Node beta} :
    (loc, found) ∈ beneathIn entries <->
      exists name rest child, loc = name :: rest ∧ entries.lookup name = some child ∧
        child.get rest = some found := by
  induction entries with
  | nil =>
      constructor
      · intro hmem
        cases hmem
      · intro hex
        rcases hex with ⟨name, rest, child, _, hlookup, _⟩
        cases hlookup
  | cons first others ih =>
      rcases first with ⟨name, node⟩
      rcases List.nodup_cons.mp hnodup with ⟨hnotMem, hothers⟩
      have hnode := h (name, node) List.mem_cons_self
      have hmore := ih hothers (fun entry hmem => h entry (List.mem_cons_of_mem _ hmem))
      show (loc, found) ∈ (([name], node) ::
        node.beneath.map (fun found => (name :: found.1, found.2))) ++ beneathIn others <-> _
      rw [List.mem_append, hmore, List.mem_cons, List.mem_map]
      constructor
      · intro hor
        rcases hor with (hself | ⟨⟨rest, deeper⟩, hmem, heq⟩) | hrest
        · cases hself
          exact ⟨name, [], found, rfl, List.lookup_cons_self, rfl⟩
        · cases heq
          exact ⟨name, rest, node, rfl, List.lookup_cons_self,
            ((hnode rest deeper).mp hmem).2⟩
        · rcases hrest with ⟨other, rest, child, hloc, hlookup, hget⟩
          have hne : other ≠ name := by
            intro heq
            rw [heq] at hlookup
            exact hnotMem (List.mem_map.mpr ⟨_, mem_of_lookup hlookup, rfl⟩)
          have hskip : ((name, node) :: others).lookup other = some child := by
            rw [List.lookup_cons, beq_false_of_ne hne]
            exact hlookup
          exact ⟨other, rest, child, hloc, hskip, hget⟩
      · intro hex
        rcases hex with ⟨other, rest, child, hloc, hlookup, hget⟩
        by_cases heq : other = name
        · rw [heq, List.lookup_cons_self] at hlookup
          cases hlookup
          left
          rw [hloc, heq]
          cases rest with
          | nil =>
              cases hget
              exact Or.inl rfl
          | cons second tail =>
              exact Or.inr ⟨(second :: tail, found),
                (hnode _ found).mpr ⟨List.cons_ne_nil _ _, hget⟩, rfl⟩
        · right
          rw [List.lookup_cons, beq_false_of_ne heq] at hlookup
          exact ⟨other, rest, child, hloc, hlookup, hget⟩

theorem mem_beneath_leaf {node found : Node beta} (hnone : node.beneath = [])
    (hentry : forall name, node.entry name = none) {loc : Loc} :
    (loc, found) ∈ node.beneath <-> loc ≠ [] ∧ node.get loc = some found := by
  rw [hnone]
  constructor
  · intro hmem
    cases hmem
  · intro hget
    cases loc with
    | nil => exact absurd rfl hget.1
    | cons name rest =>
        have hbind : (node.entry name).bind (fun node => node.get rest) = some found := hget.2
        rw [hentry name] at hbind
        cases hbind

theorem mem_beneath {node : Node beta} (h : node.proper = true) (loc : Loc)
    (found : Node beta) :
    (loc, found) ∈ node.beneath <-> loc ≠ [] ∧ node.get loc = some found := by
  induction hsize : sizeOf node using Nat.strong_induction_on generalizing node loc found with
  | _ size ih =>
      cases node with
      | directory entries =>
          rcases proper_directory.mp h with ⟨hnodup, _, hproper⟩
          have hentries : forall entry, entry ∈ entries -> forall loc found,
              (loc, found) ∈ entry.2.beneath <-> loc ≠ [] ∧ entry.2.get loc = some found := by
            intro entry hmem loc found
            have hlt : sizeOf entry.2 < size := by
              have hentry := List.sizeOf_lt_of_mem hmem
              rw [← hsize]
              cases entry with
              | mk name child =>
                  simp only [Prod.mk.sizeOf_spec] at hentry
                  simp only [directory.sizeOf_spec]
                  omega
            exact ih _ hlt (properIn_iff.mp hproper entry hmem) loc found rfl
          show (loc, found) ∈ beneathIn entries <-> _
          rw [mem_beneathIn hnodup hentries]
          constructor
          · intro hex
            rcases hex with ⟨name, rest, child, heq, hlookup, hget⟩
            rw [heq]
            constructor
            · exact List.cons_ne_nil _ _
            · show (entries.lookup name).bind (fun node => node.get rest) = some found
              rw [hlookup]
              exact hget
          · intro hget
            cases loc with
            | nil => exact absurd rfl hget.1
            | cons name rest =>
                rcases Option.bind_eq_some_iff.mp hget.2 with ⟨child, hentry, hrest⟩
                exact ⟨name, rest, child, rfl, hentry, hrest⟩
      | file content => exact mem_beneath_leaf rfl (fun _ => rfl)
      | link target => exact mem_beneath_leaf rfl (fun _ => rfl)
      | special => exact mem_beneath_leaf rfl (fun _ => rfl)

/-!
# Walks
-/

end Node

inductive Errno where
  | enoent
  | enotdir
  | eloop
deriving DecidableEq, Repr

namespace Node

variable {beta : Type}

/-- What a name leads to: a place, or a link with its target. -/
inductive Passed where
  | reached (loc : Loc)
  | linked (target : PosixPath.Text)

def pass (root : Node beta) (dir : Loc) (name : PosixPath.Text) : Except Errno Passed :=
  match root.get dir with
  | some (directory _) =>
      match root.get (PosixPath.enter dir name) with
      | some (link target) => Except.ok (Passed.linked target)
      | some _ => Except.ok (Passed.reached (PosixPath.enter dir name))
      | none => Except.error Errno.enoent
  | some _ => Except.error Errno.enotdir
  | none => Except.error Errno.enoent

/-- Where the target of a link is looked up from. -/
def base (dir : Loc) (target : PosixPath.Text) : Loc :=
  if target.head? = some PosixPath.separator then [] else dir

/-- Go through names.  {lit}`jump` goes on with the target of the first link. -/
def follow (root : Node beta) (jump : Loc -> List PosixPath.Text -> Except Errno Loc)
    (dir : Loc) : List PosixPath.Text -> Except Errno Loc
  | [] => Except.ok dir
  | name :: rest =>
      match root.pass dir name with
      | Except.error error => Except.error error
      | Except.ok (Passed.reached loc) => follow root jump loc rest
      | Except.ok (Passed.linked target) =>
          jump (base dir target) (PosixPath.split target ++ rest)

section Follow

variable {root : Node beta} {jump : Loc -> List PosixPath.Text -> Except Errno Loc}
variable {dir : Loc} {name : PosixPath.Text} (rest : List PosixPath.Text)

theorem follow_error {error : Errno} (h : root.pass dir name = Except.error error) :
    root.follow jump dir (name :: rest) = Except.error error := by
  rw [follow, h]

theorem follow_reached {loc : Loc} (h : root.pass dir name = Except.ok (Passed.reached loc)) :
    root.follow jump dir (name :: rest) = root.follow jump loc rest := by
  rw [follow, h]

theorem follow_linked {target : PosixPath.Text}
    (h : root.pass dir name = Except.ok (Passed.linked target)) :
    root.follow jump dir (name :: rest) =
      jump (base dir target) (PosixPath.split target ++ rest) := by
  rw [follow, h]

end Follow

/-- Go through names, and through so many links at most. -/
def walk (root : Node beta) : Nat -> Loc -> List PosixPath.Text -> Except Errno Loc
  | 0 => follow root (fun _ _ => Except.error Errno.eloop)
  | links + 1 => follow root (walk root links)

/-- How a walk along a path and one along a longer path end: where the first ends
well, the second goes on from there. -/
def Extends (root : Node beta) (links : Nat) (rest : List PosixPath.Text)
    (walked extended : Except Errno Loc) : Prop :=
  (exists dest left, left ≤ links ∧ walked = Except.ok dest ∧
      extended = root.walk left dest rest) ∨
    exists error, walked = Except.error error ∧ extended = Except.error error

theorem follow_append {root : Node beta} {links : Nat} {rest : List PosixPath.Text}
    {jump : Loc -> List PosixPath.Text -> Except Errno Loc}
    (hwalk : root.walk links = follow root jump)
    (hjump : forall dir names, root.Extends links rest (jump dir names) (jump dir (names ++ rest)))
    (dir : Loc) (names : List PosixPath.Text) :
    root.Extends links rest (follow root jump dir names) (follow root jump dir (names ++ rest)) := by
  induction names generalizing dir with
  | nil =>
      left
      refine ⟨dir, links, Nat.le_refl links, rfl, ?_⟩
      rw [hwalk]
      rfl
  | cons name tail ih =>
      rw [List.cons_append]
      cases hpass : root.pass dir name with
      | error error =>
          right
          exact ⟨error, follow_error tail hpass, follow_error (tail ++ rest) hpass⟩
      | ok passed =>
          cases passed with
          | reached loc =>
              rw [follow_reached tail hpass, follow_reached (tail ++ rest) hpass]
              exact ih loc
          | linked target =>
              rw [follow_linked tail hpass, follow_linked (tail ++ rest) hpass,
                ← List.append_assoc]
              exact hjump _ _

theorem walk_append (root : Node beta) (links : Nat) (dir : Loc)
    (names rest : List PosixPath.Text) :
    root.Extends links rest (root.walk links dir names) (root.walk links dir (names ++ rest)) := by
  induction links generalizing dir names with
  | zero =>
      apply follow_append rfl
      intro _ _
      exact Or.inr ⟨Errno.eloop, rfl, rfl⟩
  | succ links ih =>
      apply follow_append rfl
      intro dir names
      rcases ih dir names with ⟨dest, left, hle, hwalked, hextended⟩ | herror
      · exact Or.inl ⟨dest, left, Nat.le_succ_of_le hle, hwalked, hextended⟩
      · exact Or.inr herror

/-- A path leads nowhere when the way to it does not. -/
theorem walk_prefix {root : Node beta} {links : Nat} {dir dest : Loc}
    {names rest : List PosixPath.Text}
    (h : root.walk links dir (names ++ rest) = Except.ok dest) :
    exists mid left, left ≤ links ∧ root.walk links dir names = Except.ok mid ∧
      root.walk left mid rest = Except.ok dest := by
  rcases root.walk_append links dir names rest with ⟨mid, left, hle, hwalked, hextended⟩ | herror
  · exact ⟨mid, left, hle, hwalked, hextended.symm.trans h⟩
  · rcases herror with ⟨error, _, hextended⟩
    cases hextended.symm.trans h

theorem pass_get {root : Node beta} {dir loc : Loc} {name : PosixPath.Text}
    (h : root.pass dir name = Except.ok (Passed.reached loc)) :
    (root.get loc).isSome = true := by
  unfold pass at h
  split at h
  · split at h
    · cases h
    · next hget =>
        cases h
        rw [hget]
        rfl
    · cases h
  · cases h
  · cases h

theorem follow_get {root : Node beta}
    {jump : Loc -> List PosixPath.Text -> Except Errno Loc}
    (hjump : forall dir names dest, (root.get dir).isSome = true ->
      jump dir names = Except.ok dest -> (root.get dest).isSome = true)
    {dir dest : Loc} {names : List PosixPath.Text} (hdir : (root.get dir).isSome = true)
    (h : root.follow jump dir names = Except.ok dest) : (root.get dest).isSome = true := by
  induction names generalizing dir with
  | nil =>
      cases h
      exact hdir
  | cons name rest ih =>
      cases hpass : root.pass dir name with
      | error error => cases (follow_error rest hpass).symm.trans h
      | ok passed =>
          cases passed with
          | reached loc => exact ih (pass_get hpass) ((follow_reached rest hpass).symm.trans h)
          | linked target =>
              have hbase : (root.get (base dir target)).isSome = true := by
                unfold base
                split_ifs
                · rfl
                · exact hdir
              exact hjump _ _ _ hbase ((follow_linked rest hpass).symm.trans h)

/-- A walk ends at something. -/
theorem walk_get {root : Node beta} {links : Nat} {dir dest : Loc}
    {names : List PosixPath.Text} (hdir : (root.get dir).isSome = true)
    (h : root.walk links dir names = Except.ok dest) : (root.get dest).isSome = true := by
  induction links generalizing dir dest names with
  | zero =>
      apply follow_get _ hdir h
      intro _ _ _ _ herror
      cases herror
  | succ links ih =>
      apply follow_get _ hdir h
      intro _ _ _ hsome hwalk
      exact ih hsome hwalk

theorem enter_plain {name : PosixPath.Text} (h : PosixPath.Plain name) (dir : Loc) :
    PosixPath.enter dir name = dir ++ [name] := by
  unfold PosixPath.enter
  rw [if_neg (fun hor => hor.elim h.1 h.2.1), if_neg h.2.2.1]

/-- Where no link stands, a name leads into the directory. -/
theorem pass_real {root parent child : Node beta} {dir : Loc} {name : PosixPath.Text}
    (hname : PosixPath.Plain name) (hparent : root.get dir = some parent)
    (hdirectory : parent.isDirectory = true) (hchild : root.get (dir ++ [name]) = some child)
    (hlink : child.isLink = false) :
    root.pass dir name = Except.ok (Passed.reached (dir ++ [name])) := by
  unfold pass
  rw [hparent, enter_plain hname, hchild]
  cases parent with
  | directory entries =>
      cases child with
      | link target => cases hlink
      | file content => rfl
      | directory entries => rfl
      | special => rfl
  | file content => cases hdirectory
  | link target => cases hdirectory
  | special => cases hdirectory

theorem follow_real {root node : Node beta}
    {jump : Loc -> List PosixPath.Text -> Except Errno Loc} {dir : Loc}
    {names : List PosixPath.Text} (hplain : forall name, name ∈ names -> PosixPath.Plain name)
    (h : root.get (dir ++ names) = some node) (hlink : node.isLink = false) :
    root.follow jump dir names = Except.ok (dir ++ names) := by
  induction names generalizing dir with
  | nil =>
      rw [List.append_nil]
      rfl
  | cons name rest ih =>
      rcases List.forall_mem_cons.mp hplain with ⟨hname, hrest⟩
      rcases get_cons h with ⟨parent, child, hparent, hdirectory, hchild, hnode⟩
      have hreal : child.isLink = false := by
        cases rest with
        | nil =>
            cases hnode
            exact hlink
        | cons next tail =>
            rcases Option.bind_eq_some_iff.mp hnode with ⟨grandchild, hentry, _⟩
            cases child with
            | directory entries => rfl
            | file content => rfl
            | link target => cases hentry
            | special => rfl
      have hbelow : root.get ((dir ++ [name]) ++ rest) = some node := by
        rw [List.append_assoc]
        exact h
      rw [follow_reached rest (pass_real hname hparent hdirectory hchild hreal),
        ih hrest hbelow, List.append_assoc]
      rfl

/-- A walk that meets no link ends where the names say. -/
theorem walk_real {root node : Node beta} (links : Nat) {dir : Loc}
    {names : List PosixPath.Text} (hplain : forall name, name ∈ names -> PosixPath.Plain name)
    (h : root.get (dir ++ names) = some node) (hlink : node.isLink = false) :
    root.walk links dir names = Except.ok (dir ++ names) := by
  cases links with
  | zero => exact follow_real hplain h hlink
  | succ links => exact follow_real hplain h hlink

end Node
end Foundation
end SharedMemoryFs
