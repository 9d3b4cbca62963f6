import SharedMemoryFs.Places.PlaceFiles

/-!
# The directory index over a run

After any sequence of sets, deletes and clears the index of a projection says of
every directory what a scan of the source keys says, each file and each directory
once.
-/

namespace SharedMemoryFs

open Foundation

namespace PlaceFiles

variable {alpha : Type}

/-!
# Everything once
-/

/-- A child of a directory is named once, as a file and as a directory. -/
theorem nodup_children {files : PlaceFiles alpha} (h : files.Indexed) (dir : Key) :
    (files.children dir).Nodup := by
  have hnames : ((files.dirs.get dir).getD []).Nodup := by
    cases hget : files.dirs.get dir with
    | none => exact List.nodup_nil
    | some names => exact (h.listed dir names hget).2
  have hkey : forall {name : Name} {child : Key × Bool},
      child ∈ (if files.hasSource (dir ++ slash :: name) then [(dir ++ slash :: name, false)]
          else []) ++
        (if files.hasDirectory (dir ++ slash :: name) then [(dir ++ slash :: name, true)]
          else []) ->
      child.1 = dir ++ slash :: name := by
    intro name child hmem
    rcases List.mem_append.mp hmem with hfile | hdirectory
    · split_ifs at hfile
      · rw [List.mem_singleton.mp hfile]
      · cases hfile
    · split_ifs at hdirectory
      · rw [List.mem_singleton.mp hdirectory]
      · cases hdirectory
  unfold children
  rw [List.nodup_flatMap]
  constructor
  · intro name _
    dsimp only
    split_ifs
    · exact List.nodup_cons.mpr ⟨by simp, List.nodup_singleton _⟩
    · exact List.nodup_singleton _
    · exact List.nodup_singleton _
    · exact List.nodup_nil
  · apply hnames.imp
    intro name name' hne child hchild hchild'
    apply hne
    have heq := (hkey hchild).symm.trans (hkey hchild')
    exact (List.cons.inj (List.append_cancel_left heq)).2

/-- A child and what is listed below it go through one name. -/
theorem leads_of_block {files : PlaceFiles alpha} {fuel : Nat} {dir name : Key}
    {child found : Key × Bool} (hchild : child.1 = dir ++ slash :: name)
    (h : found ∈ child :: (if child.2 then files.belowWithin fuel child.1 else [])) :
    Leads slash dir name found.1 := by
  rcases List.mem_cons.mp h with heq | hbelow
  · rw [heq]
    exact Or.inl hchild
  · split_ifs at hbelow
    · have habove := mem_belowWithin_above files fuel child.1 hbelow
      rw [hchild] at habove
      exact Or.inr habove
    · cases hbelow

/-- A file and the directory of the same name have nothing in common. -/
theorem disjoint_blocks {files : PlaceFiles alpha} {fuel : Nat} {key : Key}
    {found : Key × Bool}
    (hfile : found ∈ (key, false) ::
      (if (key, false).2 then files.belowWithin fuel (key, false).1 else []))
    (hdirectory : found ∈ (key, true) ::
      (if (key, true).2 then files.belowWithin fuel (key, true).1 else [])) : False := by
  have hfound : found = (key, false) := List.mem_singleton.mp hfile
  rw [hfound] at hdirectory
  rcases List.mem_cons.mp hdirectory with heq | hbelow
  · cases heq
  · exact (mem_belowWithin_above files fuel key hbelow).irrefl

theorem nodup_belowWithin {files : PlaceFiles alpha} (h : files.Indexed) (fuel : Nat)
    (dir : Key) : (files.belowWithin fuel dir).Nodup := by
  induction fuel generalizing dir with
  | zero => exact List.nodup_nil
  | succ fuel ih =>
      have hself : forall child : Key × Bool, child ∉ files.belowWithin fuel child.1 := by
        intro child hmem
        exact (mem_belowWithin_above files fuel child.1 hmem).irrefl
      rw [belowWithin, List.nodup_flatMap]
      constructor
      · intro child _
        split_ifs
        · exact List.nodup_cons.mpr ⟨hself child, ih child.1⟩
        · exact List.nodup_singleton child
      · apply (nodup_children h dir).imp_of_mem
        intro child child' hmem hmem' hne found hfound hfound'
        rcases (mem_children h dir child).mp hmem with ⟨name, hname, hkey, _⟩
        rcases (mem_children h dir child').mp hmem' with ⟨name', hname', hkey', _⟩
        have hsame := (leads_of_block hkey hfound).unique hname hname' (leads_of_block hkey' hfound')
        have heq : child.1 = child'.1 := by rw [hkey, hkey', hsame]
        rcases child with ⟨key, isDirectory⟩
        rcases child' with ⟨key', isDirectory'⟩
        dsimp only at heq
        subst heq
        cases isDirectory with
        | false =>
            cases isDirectory' with
            | false => exact hne rfl
            | true => exact disjoint_blocks hfound hfound'
        | true =>
            cases isDirectory' with
            | false => exact disjoint_blocks hfound' hfound
            | true => exact hne rfl

theorem nodup_below {files : PlaceFiles alpha} (h : files.Indexed) (dir : Key) :
    (files.below dir).Nodup := nodup_belowWithin h files.depth dir

/-!
# Runs
-/

/-- {lit}`clear`. -/
def clear (_ : PlaceFiles alpha) : PlaceFiles alpha := ⟨OrderedMap.empty, OrderedMap.empty⟩

/-- A call; a key that is set begins with a slash. -/
inductive Operation (alpha : Type) where
  | set (key : EntryKey) (rooted : exists rest, key.source = slash :: rest) (entry : alpha)
  | delete (key : EntryKey)
  | clear

def apply (files : PlaceFiles alpha) : Operation alpha -> PlaceFiles alpha
  | Operation.set key _ entry => files.set key entry
  | Operation.delete key => files.delete key
  | Operation.clear => files.clear

theorem apply_indexed {files : PlaceFiles alpha} (h : files.Indexed ∧ files.Rooted)
    (operation : Operation alpha) :
    (files.apply operation).Indexed ∧ (files.apply operation).Rooted := by
  cases operation with
  | set key rooted entry => exact ⟨set_indexed h.1 key entry rooted, set_rooted h.2 key entry rooted⟩
  | delete key => exact ⟨delete_indexed h.1 h.2 key, delete_rooted h.2 key⟩
  | clear => exact ⟨empty_indexed, empty_rooted⟩

theorem run_indexed (operations : List (Operation alpha)) :
    (operations.foldl apply empty).Indexed ∧ (operations.foldl apply empty).Rooted := by
  induction operations using List.reverseRecOn with
  | nil => exact ⟨empty_indexed, empty_rooted⟩
  | append_singleton before operation ih =>
      rw [List.foldl_append]
      exact apply_indexed ih operation

/-- The index agrees with a scan of the source keys, and tells everything once. -/
theorem index_scans (operations : List (Operation alpha)) (dir : Key) :
    let files := operations.foldl apply empty
    (files.hasDirectory dir = true <->
        exists key, files.hasSource key = true ∧ exists rest, key = dir ++ slash :: rest) ∧
      (files.children dir).Nodup ∧
      (forall key isDirectory, (key, isDirectory) ∈ files.children dir <->
        exists name, slash ∉ name ∧ key = dir ++ slash :: name ∧
          if isDirectory then
            exists source, files.hasSource source = true ∧ exists rest, source = key ++ slash :: rest
          else files.hasSource key = true) ∧
      (files.below dir).Nodup ∧
      forall key isDirectory, (key, isDirectory) ∈ files.below dir <->
        (exists rest, key = dir ++ slash :: rest) ∧
          if isDirectory then
            exists source, files.hasSource source = true ∧ exists rest, source = key ++ slash :: rest
          else files.hasSource key = true := by
  intro files
  have h : files.Indexed := (run_indexed operations).1
  have hdirectory := fun dir => hasDirectory_iff h dir
  have hbears : forall key isDirectory,
      (if isDirectory then files.hasDirectory key else files.hasSource key) = true <->
        if isDirectory = true then
          exists source, files.hasSource source = true ∧ exists rest, source = key ++ slash :: rest
        else files.hasSource key = true := by
    intro key isDirectory
    cases isDirectory with
    | false => exact Iff.rfl
    | true => exact hdirectory key
  refine ⟨hdirectory dir, nodup_children h dir, ?_, nodup_below h dir, ?_⟩
  · intro key isDirectory
    rw [mem_children h]
    constructor
    · intro hex
      rcases hex with ⟨name, hname, hkey, _, hbears'⟩
      exact ⟨name, hname, hkey, (hbears key isDirectory).mp hbears'⟩
    · intro hex
      rcases hex with ⟨name, hname, hkey, hbears'⟩
      exact ⟨name, hname, hkey, ⟨name, hkey⟩, (hbears key isDirectory).mpr hbears'⟩
  · intro key isDirectory
    rw [mem_below h]
    exact and_congr Iff.rfl (hbears key isDirectory)

end PlaceFiles

end SharedMemoryFs
