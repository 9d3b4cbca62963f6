import SharedMemoryFs.Places.Derived
import SharedMemoryFs.Places.FileExt
import SharedMemoryFs.Places.Serializable

/-!
# A subtree rename and its way back

Renaming a directory re-keys what lies below it and nothing else, and renaming it
back restores what was there.  The second rename is never refused: what could stand
in its way would have refused the first.
-/

namespace SharedMemoryFs

open Foundation PlaceFiles

/-- What a store keeps of its projection. -/
structure Sound (place : Place) (files : Files) : Prop extends MapStore.Kept files where
  derived : Derived place files

/-- The bytes and the stat published under a key. -/
def PlaceFiles.content (files : Files) (k : EntryKey) : Option (Bytes × Stat) :=
  (files.get k).map (fun file => (file.data, file.stat))

/-- Moving an entry keeps its bytes and its stat and adds nothing to it. -/
structure Faithful (moved : PlaceFile -> PlaceFile) : Prop where
  content : forall file, ((moved file).data, (moved file).stat) = (file.data, file.stat)
  plain : forall file : PlaceFile, file.scriptOptions = none -> file.metadata = none ->
    (moved file).scriptOptions = none ∧ (moved file).metadata = none

theorem faithful_id : Faithful id := ⟨fun _ => rfl, fun _ hoptions hmeta => ⟨hoptions, hmeta⟩⟩

theorem faithful_copyOf : Faithful SabStore.copyOf := ⟨fun _ => rfl, fun _ _ _ => ⟨rfl, rfl⟩⟩

namespace Rekeyed

variable {place : Place} {moved : PlaceFile -> PlaceFile} {source target : Key}
  {old new : Files} {moves : List (EntryKey × EntryKey)}

theorem hasSource_inside (h : Rekeyed moved source target old new) (rest : Key) :
    new.hasSource (target ++ slash :: rest) = old.hasSource (source ++ slash :: rest) := by
  have hinside := h.inside rest none
  unfold PlaceFiles.hasSource PlaceFiles.has
  show (new.get ⟨target ++ slash :: rest, none⟩).isSome =
    (old.get ⟨source ++ slash :: rest, none⟩).isSome
  rw [hinside, Option.isSome_map]

theorem hasSource_gone (h : Rekeyed moved source target old new) {key : Key}
    (hkey : Above slash source key) : new.hasSource key = false := by
  rcases hkey with ⟨rest, hrest⟩
  rw [hrest]
  show (new.get ⟨source ++ slash :: rest, none⟩).isSome = false
  rw [h.gone]
  rfl

theorem hasSource_kept (h : Rekeyed moved source target old new) {key : Key}
    (hsource : ¬ Above slash source key) (htarget : ¬ Above slash target key) :
    new.hasSource key = old.hasSource key := by
  show (new.get ⟨key, none⟩).isSome = (old.get ⟨key, none⟩).isSome
  rw [h.kept key none hsource htarget]

/-- Where the sources are after the move. -/
theorem sources (h : Rekeyed moved source target old new) {key : Key}
    (hkey : new.hasSource key = true) :
    (old.hasSource key = true ∧ ¬ Above slash source key) ∨
      exists rest, old.hasSource (source ++ slash :: rest) = true ∧
        key = target ++ slash :: rest := by
  by_cases htarget : Above slash target key
  · rcases htarget with ⟨rest, hrest⟩
    rw [hrest, h.hasSource_inside] at hkey
    exact Or.inr ⟨rest, hkey, hrest⟩
  · by_cases hsource : Above slash source key
    · rw [h.hasSource_gone hsource] at hkey
      cases hkey
    · rw [h.hasSource_kept hsource htarget] at hkey
      exact Or.inl ⟨hkey, hsource⟩

theorem hierarchical (h : Rekeyed moved source target old new)
    (hmovable : Place.Movable place old source target moves) (hold : Hierarchical old []) :
    Hierarchical new [] :=
  hold.move hmovable (fun _ hk => h.sources hk)

/-- What moved there and back lies where it was. -/
theorem back {moved' : PlaceFile -> PlaceFile} {restored : Files}
    (h : Rekeyed moved source target old new) (h' : Rekeyed moved' target source new restored)
    (hmoved : Faithful moved) (hmoved' : Faithful moved')
    (hfree : forall rest flavor, old.get ⟨target ++ slash :: rest, flavor⟩ = none)
    (k : EntryKey) : restored.content k = old.content k := by
  rcases k with ⟨key, flavor⟩
  unfold PlaceFiles.content
  by_cases hsource : Above slash source key
  · rcases hsource with ⟨rest, hrest⟩
    rw [hrest, h'.inside, h.inside]
    cases old.get ⟨source ++ slash :: rest, flavor⟩ with
    | none => rfl
    | some file => exact congrArg some ((hmoved'.content (moved file)).trans (hmoved.content file))
  · by_cases htarget : Above slash target key
    · rcases htarget with ⟨rest, hrest⟩
      rw [hrest, h'.gone, hfree]
    · rw [h'.kept key flavor htarget hsource, h.kept key flavor hsource htarget]

end Rekeyed

/-!
# The way back is free
-/

namespace Place

variable {place : Place} {files : Files} {source target : Key}

theorem collectMoves_of {fail : Fail} {keys : List Key}
    (h : forall key, key ∈ keys -> place.immovable files key = none) :
    place.collectMoves files source target fail keys =
      Except.ok (keys.flatMap (place.movesOf files source target)) := by
  induction keys with
  | nil => rfl
  | cons key rest ih =>
      unfold collectMoves
      rw [h key List.mem_cons_self, ih (fun k hk => h k (List.mem_cons_of_mem key hk))]
      rfl

/-- What a directory needs to move. -/
theorem subtreeMoves_of (h : files.WellFormed) (hsource : Plain source) (htarget : Plain target)
    (hapart : Apart source target)
    (hsome : exists key, files.hasSource key = true ∧ Above slash source key)
    (hfree : files.hasSource target = false)
    (hbelow : forall file, files.hasSource file = true -> ¬ Above slash target file)
    (habove : forall file, files.hasSource file = true -> ¬ Above slash file target)
    (hmovable : forall key, files.hasSource key = true -> Above slash source key ->
      place.immovable files key = none) :
    exists moves, place.subtreeMoves files source target [] = Except.ok moves := by
  have hunder := fun key => mem_keysUnder h.indexed hsource key
  rcases hsome with ⟨key, hkey, hkeyBelow⟩
  have hne : ¬ files.keysUnder source = [] := by
    intro hnil
    have hmem := (hunder key).mpr ⟨hkey, hkeyBelow⟩
    rw [hnil] at hmem
    cases hmem
  have hinside : ¬ (source ++ [slash]).isPrefixOf target = true :=
    fun hprefix => hapart.outside (isPrefixOf_iff.mp hprefix)
  have hfile : ¬ files.hasSource target = true := by
    rw [hfree]
    exact Bool.false_ne_true
  have hdirectory : ¬ files.isDirectory target = true := by
    intro hdir
    rcases (isDirectory_iff h.indexed htarget).mp hdir with ⟨file, hhas, hlt⟩
    exact hbelow file hhas hlt
  have hclear : Clear files [] target := by
    constructor
    · intro file hhas _
      rcases hhas with hhas | hmem
      · exact habove file hhas
      · cases hmem
    · right
      intro file hhas
      rcases hhas with hhas | hmem
      · exact hbelow file hhas
      · cases hmem
  refine ⟨(files.keysUnder source).flatMap (place.movesOf files source target), ?_⟩
  unfold subtreeMoves
  dsimp only
  rw [if_neg hne, if_neg hapart.ne.symm, if_neg hinside, if_neg hfile, if_neg hdirectory,
    (checkHierarchy_ok h.indexed htarget).mpr hclear]
  exact collectMoves_of (fun k hk => hmovable k ((hunder k).mp hk).1 ((hunder k).mp hk).2)

/-- What makes a source move as it is does not depend on where it lies. -/
theorem immovable_rekey (hext : NameExt place.fileExt) {moved : PlaceFile -> PlaceFile}
    (hmoved : Faithful moved) {old new : Files} (h : Rekeyed moved source target old new)
    {rest : Key} (himmovable : place.immovable old (source ++ slash :: rest) = none) :
    place.immovable new (target ++ slash :: rest) = none := by
  have hkey : place.fileExt (target ++ slash :: rest) = place.fileExt (source ++ slash :: rest) :=
    hext target source rest
  have hprepared : place.prepared (target ++ slash :: rest) =
      place.prepared (source ++ slash :: rest) := by
    unfold Place.prepared PlaceConfig.prepared
    rw [hkey]
  have hdomains : place.bytecodeDomains (target ++ slash :: rest) =
      place.bytecodeDomains (source ++ slash :: rest) := by
    unfold Place.bytecodeDomains PlaceConfig.bytecodeDomains PlaceConfig.visibleRequire
      PlaceConfig.scripted
    rw [hkey]
  have hfile : new.get (EntryKey.ofSource (target ++ slash :: rest)) =
      (old.get (EntryKey.ofSource (source ++ slash :: rest))).map moved := h.inside rest none
  unfold immovable at himmovable ⊢
  rw [hprepared, hdomains, hfile]
  split_ifs at himmovable ⊢ with hp hd
  cases hold : old.get (EntryKey.ofSource (source ++ slash :: rest)) with
  | none => rfl
  | some file =>
      rw [hold] at himmovable
      dsimp only at himmovable
      have hplain : file.scriptOptions = none ∧ file.metadata = none := by
        split_ifs at himmovable with hfields
        rw [not_or, Option.not_isSome_iff_eq_none, Option.not_isSome_iff_eq_none] at hfields
        exact hfields
      rcases hmoved.plain file hplain.1 hplain.2 with ⟨hoptions, hmetadata⟩
      show (if (moved file).scriptOptions.isSome ∨ (moved file).metadata.isSome then _ else _) = _
      rw [hoptions, hmetadata]
      rfl

/-- A subtree that moved can move back. -/
theorem subtreeMoves_back (hext : NameExt place.fileExt) {moved : PlaceFile -> PlaceFile}
    (hmoved : Faithful moved) {old new : Files} (hold : MapStore.Kept old)
    (hnew : new.WellFormed) (hsource : Plain source) (htarget : Plain target)
    (hempty : old.hasSource source = false) {moves : List (EntryKey × EntryKey)}
    (hmovable : Movable place old source target moves) (hapart : Apart source target)
    (hsome : exists key, old.hasSource key = true ∧ Above slash source key)
    (h : Rekeyed moved source target old new) :
    new.hasSource target = false ∧ new.isDirectory target = true ∧
      exists back, place.subtreeMoves new target source [] = Except.ok back := by
  rcases hsome with ⟨key, hkey, rest, hrest⟩
  have hthere : new.hasSource (target ++ slash :: rest) = true := by
    rw [h.hasSource_inside, ← hrest]
    exact hkey
  have hprefix : PrefixFree slash (fun k => old.hasSource k = true) :=
    PrefixFree.mono hold.hierarchical (fun _ hk => Or.inl hk)
  constructor
  · rw [h.hasSource_kept hapart.outside Above.irrefl]
    exact hmovable.free
  · constructor
    · exact (isDirectory_iff hnew.indexed htarget).mpr ⟨_, hthere, rest, rfl⟩
    · apply subtreeMoves_of hnew htarget hsource hapart.symm ⟨_, hthere, rest, rfl⟩
      · rw [h.hasSource_kept Above.irrefl hapart.inside]
        exact hempty
      · intro file hfile hbelow
        rw [h.hasSource_gone hbelow] at hfile
        cases hfile
      · intro file hfile habove
        rcases h.sources hfile with ⟨hfileOld, _⟩ | ⟨rest', _, heq⟩
        · exact hprefix file key hfileOld hkey (habove.trans ⟨rest, hrest⟩)
        · exact hapart.inside (Above.trans ⟨rest', heq⟩ habove)
      · intro file hfile hbelow
        rcases h.sources hfile with ⟨hfileOld, _⟩ | ⟨rest', hfileOld, heq⟩
        · exact absurd hbelow (hmovable.below file hfileOld)
        · rw [heq]
          exact immovable_rekey hext hmoved h (hmovable.movable _ hfileOld ⟨rest', rfl⟩)

end Place

/-- What a directory rename does to the contents of a place. -/
structure SubtreeRenamed (source target : Key) (old new : Files) : Prop where
  inside : forall rest flavor, new.content ⟨target ++ slash :: rest, flavor⟩ =
    old.content ⟨source ++ slash :: rest, flavor⟩
  gone : source ≠ target -> forall rest flavor,
    new.content ⟨source ++ slash :: rest, flavor⟩ = none
  free : source ≠ target -> forall rest flavor,
    old.content ⟨target ++ slash :: rest, flavor⟩ = none
  kept : forall key flavor, ¬ Above slash source key -> ¬ Above slash target key ->
    new.content ⟨key, flavor⟩ = old.content ⟨key, flavor⟩

theorem SubtreeRenamed.refl (source : Key) (files : Files) :
    SubtreeRenamed source source files files :=
  ⟨fun _ _ => rfl, fun hne => absurd rfl hne, fun hne => absurd rfl hne, fun _ _ _ _ => rfl⟩

theorem Rekeyed.renamed {place : Place} {moved : PlaceFile -> PlaceFile} {source target : Key}
    {old new : Files} {moves : List (EntryKey × EntryKey)}
    (h : Rekeyed moved source target old new) (hmoved : Faithful moved)
    (hmovable : Place.Movable place old source target moves) (hderived : Derived place old) :
    SubtreeRenamed source target old new := by
  constructor
  · intro rest flavor
    unfold PlaceFiles.content
    rw [h.inside]
    cases old.get ⟨source ++ slash :: rest, flavor⟩ with
    | none => rfl
    | some file => exact congrArg some (hmoved.content file)
  · intro _ rest flavor
    unfold PlaceFiles.content
    rw [h.gone]
    rfl
  · intro _ rest flavor
    unfold PlaceFiles.content
    rw [hmovable.free_below hderived]
    rfl
  · intro key flavor hsource htarget
    unfold PlaceFiles.content
    rw [h.kept key flavor hsource htarget]

/-!
# The map store
-/

namespace MapStore

variable {place : Place} {files : Files} {source target : Key}

theorem rename_tree (hfile : files.hasSource source = false)
    (hdirectory : files.isDirectory source = true) (now : Nat) (directory : Bool) :
    run place files now (Mutation.rename source target directory) =
      moveTree place files source target := by
  have hnone : files.get (EntryKey.ofSource source) = none := by
    cases hget : files.get (EntryKey.ofSource source) with
    | none => rfl
    | some file =>
        rw [hasSource_iff.mpr ⟨file, hget⟩] at hfile
        cases hfile
  show rename place files source target directory = _
  unfold rename
  rw [hnone]
  exact if_pos hdirectory

theorem moveTree_run (place : Place) (files : Files) (source target : Key) :
    (exists refusal, place.subtreeMoves files source target [] = Except.error refusal ∧
      moveTree place files source target = (files, Except.error refusal)) ∨
    exists moves, place.subtreeMoves files source target [] = Except.ok moves ∧
      moveTree place files source target =
        ((moves.filterMap (fun move =>
          (files.get move.1).map (fun entry => (move.2, entry)))).foldl
            (fun files entry => files.set entry.1 entry.2)
            ((moves.map Prod.fst).foldl PlaceFiles.delete files), Except.ok ()) := by
  unfold moveTree
  cases place.subtreeMoves files source target [] with
  | error refusal => exact Or.inl ⟨refusal, rfl, rfl⟩
  | ok moves =>
      refine Or.inr ⟨moves, rfl, ?_⟩
      rw [List.foldl_map]

/-- A directory rename of a map place, and the one back. -/
theorem rename_subtree (hext : NameExt place.fileExt) (h : Sound place files)
    (hsource : Plain source) (htarget : Plain target) (hfile : files.hasSource source = false)
    (hdirectory : files.isDirectory source = true) (now : Nat) (directory : Bool) :
    (exists refusal, run place files now (Mutation.rename source target directory) =
      (files, Except.error refusal)) ∨
    exists renamed, run place files now (Mutation.rename source target directory) =
        (renamed, Except.ok ()) ∧
      SubtreeRenamed source target files renamed ∧ Sound place renamed ∧
      forall now' directory', exists restored,
        run place renamed now' (Mutation.rename target source directory') =
          (restored, Except.ok ()) ∧
        forall k, restored.content k = files.content k := by
  rw [rename_tree hfile hdirectory]
  have hkept : Kept (moveTree place files source target).1 :=
    Kept.moveTree h.toKept hsource htarget
  have hderived := Derived.moveTree h.derived h.wellFormed hsource htarget
  rcases moveTree_run place files source target with
    ⟨refusal, _, herror⟩ | ⟨moves, hmoves, hrun⟩
  · exact Or.inl ⟨refusal, herror⟩
  · right
    rcases Place.subtreeMoves_ok h.wellFormed hsource htarget hmoves with ⟨heq, hnil⟩ | hmovable
    · rw [hnil] at hrun
      refine ⟨files, hrun, ?_, h, ?_⟩
      · rw [heq]
        exact SubtreeRenamed.refl source files
      · intro now' directory'
        rw [heq] at hrun ⊢
        rw [rename_tree hfile hdirectory]
        exact ⟨files, hrun, fun _ => rfl⟩
    · have hsome := Place.subtreeMoves_inhabited h.wellFormed hsource hmoves
      rcases hsome with ⟨key, hkey, hbelow⟩
      have hapart := hmovable.apart hkey hbelow
      have hrekeyed := moveTree_rekeyed hmovable h.derived hapart
      rw [hrun] at hkept hderived
      have hback := Place.subtreeMoves_back hext faithful_id h.toKept hkept.wellFormed hsource
        htarget hfile hmovable hapart ⟨key, hkey, hbelow⟩ hrekeyed
      refine ⟨_, hrun, hrekeyed.renamed faithful_id hmovable h.derived, ⟨hkept, hderived⟩, ?_⟩
      intro now' directory'
      rw [rename_tree hback.1 hback.2.1]
      rcases hback.2.2 with ⟨moves', hmoves'⟩
      rcases moveTree_run place _ target source with
        ⟨refusal, herror, _⟩ | ⟨moves'', hmoves'', hrun'⟩
      · rw [hmoves'] at herror
        cases herror
      · refine ⟨_, hrun', ?_⟩
        rcases Place.subtreeMoves_ok hkept.wellFormed htarget hsource hmoves'' with
          ⟨heq, _⟩ | hmovable'
        · exact absurd heq hapart.ne
        · exact hrekeyed.back (moveTree_rekeyed hmovable' hderived hapart.symm) faithful_id
            faithful_id (hmovable.free_below h.derived)

end MapStore

/-!
# The shared store
-/

namespace SabStore

variable {place : Place} {files : Files} {source target : Key}

theorem copiesOf_of {env : Env} {moves : List (EntryKey × EntryKey)}
    (hfits : forall k, env.fits k = true)
    (hget : forall move, move ∈ moves -> files.has move.1 = true) :
    exists copies, copiesOf files env moves = Except.ok copies := by
  induction moves with
  | nil => exact ⟨[], rfl⟩
  | cons move rest ih =>
      rcases ih (fun m hm => hget m (List.mem_cons_of_mem move hm)) with ⟨copies, hcopies⟩
      rcases has_iff.mp (hget move List.mem_cons_self) with ⟨file, hfile⟩
      refine ⟨(move.1, move.2, copyOf file) :: copies, ?_⟩
      unfold copiesOf
      rw [hfile]
      show (if env.fits move.2 = true then _ else _) = _
      rw [if_pos (hfits move.2), hcopies]
      rfl

/-- A directory rename run on its own. -/
theorem run_tree (place : Place) (target : Key) (hfile : files.hasSource source = false)
    (hdirectory : files.isDirectory source = true) (env : Env) (directory : Bool) :
    (exists refusal, run place files env (Mutation.rename source target directory) =
        (files, Except.error refusal) ∧
      (place.subtreeMoves files source target [] = Except.error refusal ∨
        exists moves, place.subtreeMoves files source target [] = Except.ok moves ∧
          copiesOf files env moves = Except.error refusal)) ∨
    exists moves copies, place.subtreeMoves files source target [] = Except.ok moves ∧
      copiesOf files env moves = Except.ok copies ∧
      run place files env (Mutation.rename source target directory) =
        (flush files (treeChanges copies), Except.ok ()) := by
  have hnone : files.get (EntryKey.ofSource source) = none := by
    cases hget : files.get (EntryKey.ofSource source) with
    | none => rfl
    | some file =>
        rw [hasSource_iff.mpr ⟨file, hget⟩] at hfile
        cases hfile
  have hlocks : (locksOf files (Mutation.rename source target directory)).isSome = false := by
    have hunlocked : locksOf files (Mutation.rename source target directory) = none :=
      if_neg (fun hlocked => by
        rw [hfile] at hlocked
        cases hlocked.2)
    rw [hunlocked]
    rfl
  have hstart : changes place files env (Mutation.rename source target directory) =
      (place.subtreeMoves files source target []) >>= (fun moves =>
        (copiesOf files env moves) >>= (fun copies => Except.ok (treeChanges copies))) := by
    unfold changes
    rw [hlocks]
    show (rename place files [] false source target directory) >>= _ = _
    unfold rename
    simp only [hnone, hdirectory, Bool.not_false, and_self, if_true]
    cases place.subtreeMoves files source target [] with
    | error refusal => rfl
    | ok moves => rfl
  unfold run
  rw [hstart]
  cases place.subtreeMoves files source target [] with
  | error refusal => exact Or.inl ⟨refusal, rfl, Or.inl rfl⟩
  | ok moves =>
      cases hcopies : copiesOf files env moves with
      | error refusal =>
          refine Or.inl ⟨refusal, ?_, Or.inr ⟨moves, rfl, hcopies⟩⟩
          show _ = (files, Except.error refusal)
          simp only [bind, Except.bind, hcopies]
      | ok copies =>
          refine Or.inr ⟨moves, copies, rfl, hcopies, ?_⟩
          simp only [bind, Except.bind, hcopies]

theorem tree_wellFormed (h : files.WellFormed) (htarget : Plain target)
    {moves : List (EntryKey × EntryKey)}
    (hmovable : Place.Movable place files source target moves) {env : Env} {copies : List Copy}
    (hcopies : copiesOf files env moves = Except.ok copies) :
    (flush files (treeChanges copies)).WellFormed := by
  apply WellFormed.flush h
  intro change hchange hsome
  rw [copiesOf_eq hcopies] at hchange
  rcases mem_treeCopies.mp hchange with ⟨move, file, hmove, _, hold | hnew⟩
  · rw [hold] at hsome
    exact absurd rfl hsome
  · rcases (hmovable.mem move).mp hmove with ⟨key, _, _, hmem⟩
    rcases htarget.1 with ⟨rest, hrest⟩
    rw [hnew, (Place.mem_movesOf.mp hmem).2.1]
    exact ⟨rest ++ key.drop source.length, by rw [Place.rekey, hrest]; rfl⟩

/-- A directory rename of a shared place, and the one back. -/
theorem rename_subtree (hext : NameExt place.fileExt) (h : Sound place files)
    (hsource : Plain source) (htarget : Plain target) (hfile : files.hasSource source = false)
    (hdirectory : files.isDirectory source = true) (env : Env) (directory : Bool) :
    (exists refusal, run place files env (Mutation.rename source target directory) =
      (files, Except.error refusal)) ∨
    exists renamed, run place files env (Mutation.rename source target directory) =
        (renamed, Except.ok ()) ∧
      SubtreeRenamed source target files renamed ∧ Sound place renamed ∧
      forall env' directory',
        ((forall k, env'.fits k = true) -> exists restored,
          run place renamed env' (Mutation.rename target source directory') =
            (restored, Except.ok ())) ∧
        forall restored, run place renamed env' (Mutation.rename target source directory') =
            (restored, Except.ok ()) ->
          forall k, restored.content k = files.content k := by
  rcases run_tree place target hfile hdirectory env directory with
    ⟨refusal, herror, _⟩ | ⟨moves, copies, hmoves, hcopies, hrun⟩
  · exact Or.inl ⟨refusal, herror⟩
  · right
    rcases Place.subtreeMoves_ok h.wellFormed hsource htarget hmoves with ⟨heq, hnil⟩ | hmovable
    · have hstays : forall env' directory',
          run place files env' (Mutation.rename source target directory') =
            (files, Except.ok ()) := by
        intro env' directory'
        rcases run_tree place target hfile hdirectory env' directory' with
          ⟨refusal, _, herror | ⟨moves', hmoves', herror⟩⟩ |
            ⟨moves', copies', hmoves', hcopies', hrun'⟩
        · rw [hmoves] at herror
          cases herror
        · rw [hmoves, hnil] at hmoves'
          rw [← Except.ok.inj hmoves'] at herror
          cases herror
        · rw [hmoves, hnil] at hmoves'
          rw [← Except.ok.inj hmoves', copiesOf, Except.ok.injEq] at hcopies'
          rw [hrun', ← hcopies']
          rfl
      refine ⟨files, hstays env directory, ?_, h, ?_⟩
      · rw [heq]
        exact SubtreeRenamed.refl source files
      · intro env' directory'
        rw [heq] at hstays ⊢
        constructor
        · intro _
          exact ⟨files, hstays env' directory'⟩
        · intro restored hrestored k
          rw [hstays env' directory'] at hrestored
          rw [(Prod.mk.inj hrestored).1]
    · rcases Place.subtreeMoves_inhabited h.wellFormed hsource hmoves with ⟨key, hkey, hbelow⟩
      have hapart := hmovable.apart hkey hbelow
      have hrekeyed := moveTree_rekeyed hmovable h.derived hapart hcopies
      have hwell := tree_wellFormed h.wellFormed htarget hmovable hcopies
      have hderived := hrekeyed.derived hapart h.derived
      have hback := Place.subtreeMoves_back hext faithful_copyOf h.toKept hwell hsource
        htarget hfile hmovable hapart ⟨key, hkey, hbelow⟩ hrekeyed
      refine ⟨_, hrun, hrekeyed.renamed faithful_copyOf hmovable h.derived,
        ⟨⟨hwell, hrekeyed.hierarchical hmovable h.hierarchical⟩, hderived⟩, ?_⟩
      intro env' directory'
      rcases hback.2.2 with ⟨moves', hmoves'⟩
      rcases Place.subtreeMoves_ok hwell htarget hsource hmoves' with ⟨heq, _⟩ | hmovable'
      · exact absurd heq hapart.ne
      · rcases run_tree place source hback.1 hback.2.1 env' directory' with
          ⟨refusal, herror, hwhy⟩ | ⟨moves'', copies', hmoves'', hcopies', hrun'⟩
        · constructor
          · intro hfits
            rcases hwhy with hrefused | ⟨moves'', hmoves'', hfull⟩
            · rw [hmoves'] at hrefused
              cases hrefused
            · rw [hmoves'] at hmoves''
              rw [← Except.ok.inj hmoves''] at hfull
              rcases copiesOf_of hfits (fun move hmove => by
                rcases (hmovable'.mem_iff hderived).mp hmove with ⟨rest, flavor, file, hget, hpair⟩
                rw [hpair]
                exact has_iff.mpr ⟨file, hget⟩) with ⟨copies', hcopies'⟩
              rw [hcopies'] at hfull
              cases hfull
          · intro restored hrestored
            rw [herror] at hrestored
            cases (Prod.mk.inj hrestored).2
        · rw [hmoves'] at hmoves''
          rw [← Except.ok.inj hmoves''] at hcopies'
          constructor
          · intro _
            exact ⟨_, hrun'⟩
          · intro restored hrestored
            rw [hrun'] at hrestored
            rw [← (Prod.mk.inj hrestored).1]
            exact hrekeyed.back (moveTree_rekeyed hmovable' hderived hapart.symm hcopies')
              faithful_copyOf faithful_copyOf (hmovable.free_below h.derived)

end SabStore

/-!
# Subtree renames in both stores
-/

theorem MapStore.Reachable.sound {place : Place} {files : Files}
    (h : MapStore.Reachable place PlaceFiles.empty files) : Sound place files :=
  ⟨h.kept MapStore.Kept.empty, h.derived⟩

theorem SabPlace.Reachable.sound {place : Place} {s : SabPlace}
    (h : SabPlace.Reachable place PlaceFiles.empty s) : Sound place s.files := by
  have hoverlap := h.overlap MapStore.Kept.empty
  refine ⟨⟨hoverlap.wellFormed, hoverlap.hierarchical.mono ?_⟩, h.derived⟩
  intro k hk
  rcases hk with hk | hk
  · exact Or.inl hk
  · cases hk

/-- Every state a store reaches is sound, and in a sound one a directory rename is
refused with nothing changed, or re-keys exactly what lies below the directory and can
be taken back. -/
theorem subtree_rename_rekeys (place : Place) (hext : NameExt place.fileExt) :
    (forall files, MapStore.Reachable place PlaceFiles.empty files -> Sound place files) ∧
    (forall s, SabPlace.Reachable place PlaceFiles.empty s -> Sound place s.files) ∧
    forall files source target directory, Sound place files ->
      canonicalKey source = some source -> canonicalKey target = some target ->
      files.hasSource source = false -> files.isDirectory source = true ->
      (forall now,
        (exists refusal,
          MapStore.run place files now (Mutation.rename source target directory) =
            (files, Except.error refusal)) ∨
        exists renamed,
          MapStore.run place files now (Mutation.rename source target directory) =
              (renamed, Except.ok ()) ∧
            SubtreeRenamed source target files renamed ∧ Sound place renamed ∧
            forall now' directory', exists restored,
              MapStore.run place renamed now' (Mutation.rename target source directory') =
                (restored, Except.ok ()) ∧
              forall k, restored.content k = files.content k) ∧
      (forall env,
        (exists refusal,
          SabStore.run place files env (Mutation.rename source target directory) =
            (files, Except.error refusal)) ∨
        exists renamed,
          SabStore.run place files env (Mutation.rename source target directory) =
              (renamed, Except.ok ()) ∧
            SubtreeRenamed source target files renamed ∧ Sound place renamed ∧
            forall env' directory',
              ((forall k, env'.fits k = true) -> exists restored,
                SabStore.run place renamed env' (Mutation.rename target source directory') =
                  (restored, Except.ok ())) ∧
              forall restored,
                SabStore.run place renamed env' (Mutation.rename target source directory') =
                  (restored, Except.ok ()) ->
                forall k, restored.content k = files.content k) := by
  constructor
  · exact fun files h => h.sound
  · constructor
    · exact fun s h => h.sound
    · intro files source target directory h hsource htarget hfile hdirectory
      have hs := canonicalKey_plain hsource
      have ht := canonicalKey_plain htarget
      constructor
      · intro now
        exact MapStore.rename_subtree hext h hs ht hfile hdirectory now directory
      · intro env
        exact SabStore.rename_subtree hext h hs ht hfile hdirectory env directory

def treePlace : Place := { SabPlace.demoPlace with fileExt := Metautil.fileExt }

def treeLeaf : Files :=
  (MapStore.run treePlace PlaceFiles.empty 0
    (Mutation.write "/d/a.txt".toList [1] false)).1

def treeFiles : Files :=
  (MapStore.run treePlace treeLeaf 0 (Mutation.write "/d/s/b.txt".toList [2] false)).1

theorem treeFiles_reachable : MapStore.Reachable treePlace PlaceFiles.empty treeFiles :=
  (MapStore.Reachable.initial.run 0 _ (by decide +kernel)).run 0 _ (by decide +kernel)

theorem treeFiles_renames :
    (MapStore.run treePlace treeFiles 0
      (Mutation.rename "/d".toList "/e/f".toList false)).2.isOk = true := by
  decide +kernel

theorem subtree_rename_rekeys_tree :
    exists renamed,
      MapStore.run treePlace treeFiles 0 (Mutation.rename "/d".toList "/e/f".toList false) =
          (renamed, Except.ok ()) ∧
        SubtreeRenamed "/d".toList "/e/f".toList treeFiles renamed := by
  rcases ((subtree_rename_rekeys treePlace fileExt_nameExt).2.2 treeFiles "/d".toList
    "/e/f".toList false treeFiles_reachable.sound (by decide +kernel) (by decide +kernel)
    (by decide +kernel) (by decide +kernel)).1 0 with ⟨refusal, herror⟩ | ⟨renamed, hrun, h, _⟩
  · have hok := treeFiles_renames
    rw [herror] at hok
    cases hok
  · exact ⟨renamed, hrun, h⟩

end SharedMemoryFs
