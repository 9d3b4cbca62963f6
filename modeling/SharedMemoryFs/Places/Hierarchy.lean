import SharedMemoryFs.Places.Contents

/-!
# A path is a file or a directory

The hierarchy of a virtual place: no source key, published or in flight, is above
another.  Each way a mutation changes the keys keeps it.
-/

namespace SharedMemoryFs

open Foundation PlaceFiles

/-- No key published or in flight is a proper ancestor of another. -/
def Hierarchical (files : Files) (creating : List Key) : Prop :=
  PrefixFree slash (fun key => files.hasSource key = true ∨ key ∈ creating)

namespace Hierarchical

variable {place : Place} {files files' : Files} {creating creating' : List Key}
  {key source target : Key}

theorem empty : Hierarchical (PlaceFiles.empty : Files) [] := by
  intro a b ha
  rcases ha with ha | ha
  · cases ha
  · cases ha

theorem mono (h : Hierarchical files creating)
    (hsub : forall k, files'.hasSource k = true ∨ k ∈ creating' ->
      files.hasSource k = true ∨ k ∈ creating) : Hierarchical files' creating' :=
  PrefixFree.mono h hsub

/-- A key the check cleared may be in flight. -/
theorem create (h : Hierarchical files creating) (hrooted : files.Rooted)
    (hcreating : forall k, k ∈ creating -> Plain k) (hclear : Place.Clear files creating key) :
    Hierarchical files (key :: creating) := by
  have hne : forall k, files.hasSource k = true ∨ k ∈ creating -> k ≠ [] := by
    intro k hk
    have hroot : exists rest, k = slash :: rest := by
      rcases hk with hk | hk
      · exact hrooted k hk
      · exact (hcreating k hk).1
    rcases hroot with ⟨rest, hrest⟩
    rw [hrest]
    exact List.cons_ne_nil _ _
  rcases hclear.below with hfile | hbelow
  · refine h.mono (fun k hk => ?_)
    rcases hk with hk | hk
    · exact Or.inl hk
    · rcases List.mem_cons.mp hk with rfl | hk
      · exact Or.inl hfile
      · exact Or.inr hk
  · have hinsert := PrefixFree.insert h (fun a ha => hclear.above a ha (hne a ha)) hbelow
    refine hinsert.mono (fun k hk => ?_)
    rcases hk with hk | hk
    · exact Or.inl (Or.inl hk)
    · rcases List.mem_cons.mp hk with heq | hk
      · exact Or.inr heq
      · exact Or.inl (Or.inr hk)

theorem clear (h : Hierarchical files creating) (hkey : key ∈ creating) :
    Place.Clear files [] key := by
  have hfile : forall {file : Key}, files.hasSource file = true ∨ file ∈ ([] : List Key) ->
      files.hasSource file = true ∨ file ∈ creating := by
    intro file hfile
    rcases hfile with hfile | hfile
    · exact Or.inl hfile
    · cases hfile
  constructor
  · exact fun file hhas _ => h file key (hfile hhas) (Or.inr hkey)
  · exact Or.inr (fun file hhas => h key file (Or.inr hkey) (hfile hhas))

/-- Re-keying a subtree under a free place. -/
theorem move {moves : List (EntryKey × EntryKey)} (h : Hierarchical files [])
    (hmovable : Place.Movable place files source target moves)
    (hkeys : forall k, files'.hasSource k = true ->
      (files.hasSource k = true ∧ ¬ Above slash source k) ∨
        exists rest, files.hasSource (source ++ slash :: rest) = true ∧
          k = target ++ slash :: rest) : Hierarchical files' [] := by
  have hplain : PrefixFree slash (fun k => files.hasSource k = true) :=
    PrefixFree.mono h (fun _ hk => Or.inl hk)
  have hat : ¬ files.hasSource target = true := by
    rw [hmovable.free]
    exact Bool.false_ne_true
  have hrekey : PrefixFree slash (fun k =>
      (files.hasSource k = true ∧ ¬ Above slash source k) ∨
        exists rest, files.hasSource (source ++ slash :: rest) = true ∧
          k = target ++ slash :: rest) :=
    PrefixFree.rekey hplain hmovable.above hat hmovable.below
  refine hrekey.mono ?_
  intro k hk
  rcases hk with hk | hk
  · exact hkeys k hk
  · cases hk

end Hierarchical

/-- The source keys a re-keyed subtree leaves, from what became of every entry. -/
theorem Place.Movable.keys {place : Place} {files files' : Files} {source target : Key}
    {moves : List (EntryKey × EntryKey)} (h : place.Movable files source target moves)
    (hget : forall k, files'.hasSource k = true ->
      (exists move, move ∈ moves ∧ move.2 = EntryKey.ofSource k) ∨
        (files.hasSource k = true ∧ EntryKey.ofSource k ∉ moves.map Prod.fst))
    (k : Key) (hk : files'.hasSource k = true) :
    (files.hasSource k = true ∧ ¬ Above slash source k) ∨
      exists rest, files.hasSource (source ++ slash :: rest) = true ∧
        k = target ++ slash :: rest := by
  rcases hget k hk with ⟨move, hmove, hnew⟩ | ⟨hold, hkept⟩
  · rcases (h.mem move).mp hmove with ⟨key, hkey, ⟨rest, rfl⟩, hmem⟩
    have hrekey := (Place.mem_movesOf.mp hmem).2.1
    rw [hnew, Place.rekey_append] at hrekey
    exact Or.inr ⟨rest, hkey, congrArg EntryKey.source hrekey⟩
  · refine Or.inl ⟨hold, ?_⟩
    intro habove
    apply hkept
    have hmove : (EntryKey.ofSource k, EntryKey.ofSource (Place.rekey source target k)) ∈ moves :=
      (h.mem _).mpr ⟨k, hold, habove, List.mem_cons_self⟩
    exact List.mem_map_of_mem hmove

/-!
# The map store
-/

namespace MapStore

variable {place : Place} {files : Files} {key source target : Key}

/-- What every mutation of a map place keeps. -/
structure Kept (files : Files) : Prop where
  wellFormed : files.WellFormed
  hierarchical : Hierarchical files []

theorem Kept.empty : Kept (PlaceFiles.empty : Files) :=
  ⟨empty_wellFormed, Hierarchical.empty⟩

theorem Kept.remove (h : Kept files) (key : Key) : Kept (remove place files key) := by
  constructor
  · exact WellFormed.remove h.wellFormed
  · refine h.hierarchical.mono (fun k hk => ?_)
    rcases hk with hk | hk
    · exact Or.inl ((hasSource_remove k).mp hk).2
    · cases hk

theorem Kept.foldl_remove (h : Kept files) (keys : List Key) :
    Kept (keys.foldl (MapStore.remove place) files) := by
  induction keys generalizing files with
  | nil => exact h
  | cons key rest ih => exact ih (h.remove key)

/-- Publishing a key the check cleared. -/
theorem Kept.publish (h : Kept files) (hkey : Plain key)
    (hclear : Place.Clear files [] key) {input : PlaceFile} {published : Files}
    (hpublish : publish place files key input = Except.ok published) : Kept published := by
  constructor
  · exact WellFormed.publish h.wellFormed hkey hpublish
  · refine (h.hierarchical.create h.wellFormed.rooted (by simp) hclear).mono (fun k hk => ?_)
    rcases hk with hk | hk
    · rcases (hasSource_publish hpublish k).mp hk with rfl | hk
      · exact Or.inr List.mem_cons_self
      · exact Or.inl hk
    · cases hk

variable (place files) in
theorem publishRaw_cases (key : Key) (raw : Bytes) (now : Nat) :
    (publishRaw place files key raw now).1 = files ∨
      exists input, publish place files key input =
        Except.ok (publishRaw place files key raw now).1 := by
  unfold publishRaw
  cases (input place key raw Syscall.openFile now).2 with
  | error refusal => exact Or.inl rfl
  | ok input =>
      dsimp only
      cases hpublish : publish place files key input with
      | error refusal => exact Or.inl rfl
      | ok published => exact Or.inr ⟨input, hpublish⟩

theorem Kept.publishRaw (h : Kept files) (hkey : Plain key)
    (hclear : Place.Clear files [] key) (raw : Bytes) (now : Nat) :
    Kept (publishRaw place files key raw now).1 := by
  rcases publishRaw_cases place files key raw now with heq | ⟨input, hpublish⟩
  · rw [heq]
    exact h
  · exact h.publish hkey hclear hpublish

theorem Kept.write (h : Kept files) (hkey : Plain key) (data : Bytes) (exclusive : Bool)
    (now : Nat) : Kept (write place files key data exclusive now).1 := by
  unfold MapStore.write
  dsimp only
  cases (if exclusive = true then
      Place.checkExclusive files key (place.failOn Syscall.openFile key)
    else Except.ok ()) with
  | error refusal => exact h
  | ok _ =>
      cases hcheck : Place.checkHierarchy files key (place.failOn Syscall.openFile key) [] with
      | error refusal => exact h
      | ok _ =>
          exact h.publishRaw hkey
            ((Place.checkHierarchy_ok h.wellFormed.indexed hkey).mp hcheck) data now

theorem Kept.append (h : Kept files) (hkey : Plain key) (data : Bytes) (now : Nat) :
    Kept (append place files key data now).1 := by
  unfold MapStore.append
  dsimp only
  by_cases hprepared : (place.prepared key).isSome = true
  · rw [if_pos hprepared]
    exact h
  · rw [if_neg hprepared]
    cases hcheck : Place.checkHierarchy files key (place.failOn Syscall.openFile key) [] with
    | error refusal => exact h
    | ok _ =>
        exact h.publishRaw hkey
          ((Place.checkHierarchy_ok h.wellFormed.indexed hkey).mp hcheck) _ now

theorem Kept.unlink (h : Kept files) (directory : Bool) :
    Kept (unlink place files key directory).1 := by
  unfold MapStore.unlink
  dsimp only
  split_ifs
  · exact h.remove key
  · exact h
  · exact h

theorem Kept.rm (h : Kept files) (directory force recursive : Bool) :
    Kept (rm place files key directory force recursive).1 := by
  unfold MapStore.rm
  dsimp only
  split_ifs
  · exact h.remove key
  · exact h
  · exact h
  · exact h
  · exact h.foldl_remove _

theorem get_overwrite {current : PlaceFile} {raw : Bytes} (k : EntryKey) :
    (overwrite files source current raw).get k =
      if k = EntryKey.ofSource source then some { current with data := raw }
      else files.get k :=
  get_set files _ _ _

theorem hasSource_overwrite {current : PlaceFile} {raw : Bytes}
    (hcurrent : files.get (EntryKey.ofSource source) = some current) (k : Key) :
    (overwrite files source current raw).hasSource k = files.hasSource k := by
  rw [Bool.eq_iff_iff, hasSource_iff, get_overwrite, hasSource_iff]
  by_cases hk : EntryKey.ofSource k = EntryKey.ofSource source
  · rw [if_pos hk, hk, hcurrent]
    simp
  · rw [if_neg hk]

theorem Kept.overwrite (h : Kept files) {current : PlaceFile} {raw : Bytes}
    (hcurrent : files.get (EntryKey.ofSource source) = some current) :
    Kept (overwrite files source current raw) := by
  have hsource : exists rest, source = slash :: rest :=
    h.wellFormed.rooted source (hasSource_iff.mpr ⟨current, hcurrent⟩)
  constructor
  · exact h.wellFormed.set _ hsource
  · refine h.hierarchical.mono (fun k hk => ?_)
    rw [hasSource_overwrite hcurrent] at hk
    exact hk

theorem Kept.renameFile (h : Kept files) (htarget : Plain target) {current : PlaceFile}
    (hcurrent : files.get (EntryKey.ofSource source) = some current) :
    Kept (renameFile place files source target current).1 := by
  unfold MapStore.renameFile
  cases hcheck : Place.checkHierarchy files target (place.failRename source target) [] with
  | error refusal => exact h
  | ok _ =>
      have hclear := (Place.checkHierarchy_ok h.wellFormed.indexed htarget).mp hcheck
      have hwritten : forall raw, Kept (MapStore.overwrite files source current raw) :=
        fun raw => h.overwrite hcurrent
      have hclear' : forall raw,
          Place.Clear (MapStore.overwrite files source current raw) [] target := by
        intro raw
        constructor
        · intro file hfile
          rw [hasSource_overwrite hcurrent] at hfile
          exact hclear.above file hfile
        · rcases hclear.below with hbelow | hbelow
          · refine Or.inl ?_
            rw [hasSource_overwrite hcurrent]
            exact hbelow
          · refine Or.inr (fun file hfile => ?_)
            rw [hasSource_overwrite hcurrent] at hfile
            exact hbelow file hfile
      dsimp only
      cases (input place target current.data Syscall.rename current.stat.mtimeMs).2 with
      | error refusal => exact hwritten _
      | ok prepared =>
          dsimp only
          cases hpublish : MapStore.publish place (MapStore.overwrite files source current
              (input place target current.data Syscall.rename current.stat.mtimeMs).1)
              target prepared with
          | error refusal => exact hwritten _
          | ok published =>
              exact ((hwritten _).publish htarget (hclear' _) hpublish).remove source

variable (place files source target) in
/-- What a subtree moved in one step leaves under each key. -/
theorem moveTree_cases :
    (moveTree place files source target).1 = files ∨
      exists moves, place.subtreeMoves files source target [] = Except.ok moves ∧
        (moveTree place files source target).1 =
          (moves.filterMap (fun move =>
            (files.get move.1).map (fun entry => (move.2, entry)))).foldl
              (fun files entry => files.set entry.1 entry.2)
              ((moves.map Prod.fst).foldl PlaceFiles.delete files) := by
  unfold moveTree
  cases hmoves : place.subtreeMoves files source target [] with
  | error refusal => exact Or.inl rfl
  | ok moves =>
      refine Or.inr ⟨moves, rfl, ?_⟩
      rw [List.foldl_map]

theorem Kept.moveTree (h : Kept files) (hsource : Plain source) (htarget : Plain target) :
    Kept (moveTree place files source target).1 := by
  rcases moveTree_cases place files source target with heq | ⟨moves, hmoves, heq⟩
  · rw [heq]
    exact h
  · rcases Place.subtreeMoves_ok h.wellFormed hsource htarget hmoves with ⟨_, hnil⟩ | hmovable
    · rw [heq, hnil]
      exact h
    · have hmem : forall entry, entry ∈ moves.filterMap (fun move =>
          (files.get move.1).map (fun entry => (move.2, entry))) ->
          exists move, move ∈ moves ∧ move.2 = entry.1 := by
        intro entry hentry
        rcases List.mem_filterMap.mp hentry with ⟨move, hmove, hmap⟩
        rcases Option.map_eq_some_iff.mp hmap with ⟨file, _, rfl⟩
        exact ⟨move, hmove, rfl⟩
      rw [heq]
      constructor
      · refine (h.wellFormed.foldl_delete _).foldl_set ?_
        intro entry hentry
        rcases hmem entry hentry with ⟨move, hmove, hnew⟩
        rcases (hmovable.mem move).mp hmove with ⟨key, _, _, hkey⟩
        rcases htarget.1 with ⟨rest, hrest⟩
        rw [← hnew, (Place.mem_movesOf.mp hkey).2.1]
        exact ⟨rest ++ key.drop source.length, by rw [Place.rekey, hrest]; rfl⟩
      · refine h.hierarchical.move hmovable (hmovable.keys (fun k hk => ?_))
        rw [hasSource_iff, PlaceFiles.get_foldl_set, PlaceFiles.get_foldl_delete] at hk
        rcases hk with ⟨file, hfile⟩
        rcases Option.or_eq_some_iff.mp hfile with hlast | ⟨_, hrest⟩
        · rcases hmem _ (lastOf_mem hlast) with ⟨move, hmove, hnew⟩
          exact Or.inl ⟨move, hmove, hnew⟩
        · split_ifs at hrest with hmoved
          exact Or.inr ⟨hasSource_iff.mpr ⟨file, hrest⟩, hmoved⟩

theorem Kept.rename (h : Kept files) (hsource : Plain source) (htarget : Plain target)
    (directory : Bool) : Kept (rename place files source target directory).1 := by
  unfold MapStore.rename
  cases hcurrent : files.get (EntryKey.ofSource source) with
  | none =>
      dsimp only
      split_ifs
      · exact h.moveTree hsource htarget
      · exact h
      · exact h
  | some current =>
      dsimp only
      split_ifs
      · exact h
      · exact h
      · exact h
      · exact h.renameFile htarget hcurrent

theorem Kept.run (h : Kept files) (now : Nat) {op : Mutation} (hop : op.Canonical) :
    Kept (run place files now op).1 := by
  have hplain : forall key, key ∈ op.keys -> Plain key :=
    fun key hkey => canonicalKey_plain (hop key hkey)
  cases op with
  | write key data exclusive => exact h.write (hplain key (by simp [Mutation.keys])) _ _ _
  | append key data => exact h.append (hplain key (by simp [Mutation.keys])) _ _
  | unlink key directory => exact h.unlink directory
  | mkdir key recursive => exact h
  | rm key directory force recursive => exact h.rm directory force recursive
  | rename source target directory =>
      exact h.rename (hplain source (by simp [Mutation.keys]))
        (hplain target (by simp [Mutation.keys])) directory

/-- The projection after each of a sequence of mutations. -/
inductive Reachable (place : Place) (files : Files) : Files -> Prop where
  | initial : Reachable place files files
  | run (now : Nat) (op : Mutation) :
      Reachable place files files' -> op.Canonical ->
      Reachable place files (MapStore.run place files' now op).1

theorem Reachable.kept {files' : Files} (h : Reachable place files files') (hfiles : Kept files) :
    Kept files' := by
  induction h with
  | initial => exact hfiles
  | run now op _ hop ih => exact ih.run now hop

end MapStore

end SharedMemoryFs
