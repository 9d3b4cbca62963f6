import SharedMemoryFs.Places.Hierarchy
import SharedMemoryFs.Places.Turn

/-!
# Re-keying a subtree

A subtree that moves leaves every entry below the source under the key it has below
the target, and every other entry where it was.  Both stores do this, the map store
with the entries themselves and the shared store with copies of them.
-/

namespace SharedMemoryFs

open Foundation PlaceFiles

/-- A companion has a source, and is one the place may hold for it. -/
def Derived (place : Place) (files : Files) : Prop :=
  forall k file, files.get k = some file -> k.flavor ≠ none ->
    files.hasSource k.source = true ∧ k ∈ place.companions k.source

/-- What became of the entries of a place; {lit}`moved` is what a moved entry is. -/
structure Rekeyed (moved : PlaceFile -> PlaceFile) (source target : Key)
    (old new : Files) : Prop where
  inside : forall rest flavor, new.get ⟨target ++ slash :: rest, flavor⟩ =
    (old.get ⟨source ++ slash :: rest, flavor⟩).map moved
  gone : forall rest flavor, new.get ⟨source ++ slash :: rest, flavor⟩ = none
  kept : forall key flavor, ¬ Above slash source key -> ¬ Above slash target key ->
    new.get ⟨key, flavor⟩ = old.get ⟨key, flavor⟩

/-- Two directories neither of which holds the other. -/
structure Apart (source target : Key) : Prop where
  ne : source ≠ target
  outside : ¬ Above slash source target
  inside : ¬ Above slash target source

theorem Apart.symm {source target : Key} (h : Apart source target) : Apart target source :=
  ⟨h.ne.symm, h.inside, h.outside⟩

/-- Nothing lies below both. -/
theorem Apart.disjoint {source target key : Key} (h : Apart source target)
    (hsource : Above slash source key) : ¬ Above slash target key := by
  intro htarget
  rcases hsource with ⟨rest, hrest⟩
  rcases htarget with ⟨rest', hrest'⟩
  rcases comparable (hrest.symm.trans hrest') with heq | hlt | hlt
  · exact h.ne heq
  · exact h.outside hlt
  · exact h.inside hlt

namespace Place

variable {place : Place} {files : Files} {source target : Key}
  {moves : List (EntryKey × EntryKey)}

/-- A subtree that moves has a source in it. -/
theorem subtreeMoves_inhabited (h : files.WellFormed) (hsource : Plain source)
    {creating : List Key} (hmoves : place.subtreeMoves files source target creating =
      Except.ok moves) :
    exists key, files.hasSource key = true ∧ Above slash source key := by
  unfold subtreeMoves at hmoves
  dsimp only at hmoves
  by_cases hempty : files.keysUnder source = []
  · rw [if_pos hempty] at hmoves
    cases hmoves
  · rcases List.exists_mem_of_ne_nil _ hempty with ⟨key, hkey⟩
    exact ⟨key, (mem_keysUnder h.indexed hsource key).mp hkey⟩

theorem Movable.apart (h : Movable place files source target moves) {key : Key}
    (hkey : files.hasSource key = true) (hbelow : Above slash source key) :
    Apart source target := by
  constructor
  · intro heq
    rw [heq] at hbelow
    exact h.below key hkey hbelow
  · exact h.outside
  · intro habove
    exact h.below key hkey (habove.trans hbelow)

/-- Companions included, nothing lies below the target. -/
theorem Movable.free_below (h : Movable place files source target moves)
    (hderived : Derived place files) (rest : Key) (flavor : Option Flavor) :
    files.get ⟨target ++ slash :: rest, flavor⟩ = none := by
  cases hget : files.get ⟨target ++ slash :: rest, flavor⟩ with
  | none => rfl
  | some file =>
      have hhas : files.hasSource (target ++ slash :: rest) = true := by
        cases flavor with
        | none => exact hasSource_iff.mpr ⟨file, hget⟩
        | some flavor => exact (hderived _ file hget (by simp)).1
      exact absurd ⟨rest, rfl⟩ (h.below _ hhas)

/-- The entries that move are those below the source. -/
theorem Movable.mem_iff (h : Movable place files source target moves)
    (hderived : Derived place files) {move : EntryKey × EntryKey} :
    move ∈ moves <-> exists rest flavor file,
      files.get ⟨source ++ slash :: rest, flavor⟩ = some file ∧
        move = (⟨source ++ slash :: rest, flavor⟩, ⟨target ++ slash :: rest, flavor⟩) := by
  rw [h.mem]
  constructor
  · intro hmem
    rcases hmem with ⟨key, hkey, ⟨rest, hrest⟩, hmove⟩
    rcases mem_movesOf.mp hmove with ⟨hsource, htarget, hcases⟩
    have hold : move.1 = ⟨source ++ slash :: rest, move.1.flavor⟩ := by
      rw [← hrest, ← hsource]
    have hnew : move.2 = ⟨target ++ slash :: rest, move.1.flavor⟩ := by
      rw [htarget, hrest, rekey_append]
    have hhas : exists file, files.get move.1 = some file := by
      rcases hcases with hnone | hcompanion
      · rw [hold, hnone, ← hrest]
        exact hasSource_iff.mp hkey
      · exact has_iff.mp hcompanion.2
    rcases hhas with ⟨file, hfile⟩
    refine ⟨rest, move.1.flavor, file, ?_, ?_⟩
    · rw [← hold]
      exact hfile
    · rw [← hold, ← hnew]
  · intro hmem
    rcases hmem with ⟨rest, flavor, file, hfile, hmove⟩
    have hkey : files.hasSource (source ++ slash :: rest) = true := by
      cases flavor with
      | none => exact hasSource_iff.mpr ⟨file, hfile⟩
      | some flavor => exact (hderived _ file hfile (by simp)).1
    refine ⟨source ++ slash :: rest, hkey, ⟨rest, rfl⟩, mem_movesOf.mpr ?_⟩
    rw [hmove, rekey_append]
    refine ⟨rfl, rfl, ?_⟩
    cases flavor with
    | none => exact Or.inl rfl
    | some flavor => exact Or.inr ⟨(hderived _ file hfile (by simp)).2, has_iff.mpr ⟨file, hfile⟩⟩

theorem Movable.old_below (h : Movable place files source target moves)
    (hderived : Derived place files) {k : EntryKey} (hk : k ∈ moves.map Prod.fst) :
    Above slash source k.source := by
  rcases List.mem_map.mp hk with ⟨move, hmove, heq⟩
  rcases (h.mem_iff hderived).mp hmove with ⟨rest, flavor, file, _, hpair⟩
  rw [← heq, hpair]
  exact ⟨rest, rfl⟩

theorem Movable.new_below (h : Movable place files source target moves)
    (hderived : Derived place files) {k : EntryKey} (hk : k ∈ moves.map Prod.snd) :
    Above slash target k.source := by
  rcases List.mem_map.mp hk with ⟨move, hmove, heq⟩
  rcases (h.mem_iff hderived).mp hmove with ⟨rest, flavor, file, _, hpair⟩
  rw [← heq, hpair]
  exact ⟨rest, rfl⟩

/-- What becomes of the keys of the moves decides what becomes of every key. -/
theorem Movable.rekeyed (h : Movable place files source target moves)
    (hderived : Derived place files) (hapart : Apart source target)
    {moved : PlaceFile -> PlaceFile} {new : Files}
    (hnew : forall move file, move ∈ moves -> files.get move.1 = some file ->
      new.get move.2 = some (moved file))
    (hold : forall move, move ∈ moves -> new.get move.1 = none)
    (hkept : forall k, k ∉ moves.map Prod.fst -> k ∉ moves.map Prod.snd ->
      new.get k = files.get k) : Rekeyed moved source target files new := by
  constructor
  · intro rest flavor
    cases hget : files.get ⟨source ++ slash :: rest, flavor⟩ with
    | some file =>
        exact hnew (⟨source ++ slash :: rest, flavor⟩, ⟨target ++ slash :: rest, flavor⟩) file
          ((h.mem_iff hderived).mpr ⟨rest, flavor, file, hget, rfl⟩) hget
    | none =>
        have hbelow : Above slash target (target ++ slash :: rest) := ⟨rest, rfl⟩
        have hfst : (⟨target ++ slash :: rest, flavor⟩ : EntryKey) ∉ moves.map Prod.fst :=
          fun hmem => hapart.disjoint (h.old_below hderived hmem) hbelow
        have hsnd : (⟨target ++ slash :: rest, flavor⟩ : EntryKey) ∉ moves.map Prod.snd := by
          intro hmem
          rcases List.mem_map.mp hmem with ⟨move, hmove, heq⟩
          rcases (h.mem_iff hderived).mp hmove with ⟨rest', flavor', file, hfile, hpair⟩
          rw [hpair] at heq
          have hkey : target ++ slash :: rest' = target ++ slash :: rest :=
            congrArg EntryKey.source heq
          have hflavor : flavor' = flavor := congrArg EntryKey.flavor heq
          rw [(List.cons.inj (List.append_cancel_left hkey)).2, hflavor, hget] at hfile
          cases hfile
        rw [hkept _ hfst hsnd, h.free_below hderived]
        rfl
  · intro rest flavor
    cases hget : files.get ⟨source ++ slash :: rest, flavor⟩ with
    | some file =>
        exact hold (⟨source ++ slash :: rest, flavor⟩, ⟨target ++ slash :: rest, flavor⟩)
          ((h.mem_iff hderived).mpr ⟨rest, flavor, file, hget, rfl⟩)
    | none =>
        have hbelow : Above slash source (source ++ slash :: rest) := ⟨rest, rfl⟩
        have hsnd : (⟨source ++ slash :: rest, flavor⟩ : EntryKey) ∉ moves.map Prod.snd :=
          fun hmem => hapart.disjoint hbelow (h.new_below hderived hmem)
        have hfst : (⟨source ++ slash :: rest, flavor⟩ : EntryKey) ∉ moves.map Prod.fst := by
          intro hmem
          rcases List.mem_map.mp hmem with ⟨move, hmove, heq⟩
          rcases (h.mem_iff hderived).mp hmove with ⟨rest', flavor', file, hfile, hpair⟩
          rw [hpair] at heq
          rw [← heq] at hget
          rw [hget] at hfile
          cases hfile
        rw [hkept _ hfst hsnd, hget]
  · intro key flavor hsource htarget
    exact hkept _ (fun hmem => hsource (h.old_below hderived hmem))
      (fun hmem => htarget (h.new_below hderived hmem))

end Place

/-!
# The map store
-/

namespace MapStore

variable {place : Place} {files : Files} {source target : Key}
  {moves : List (EntryKey × EntryKey)}

/-- The entries themselves lie under the new keys. -/
theorem moveTree_rekeyed (h : Place.Movable place files source target moves)
    (hderived : Derived place files) (hapart : Apart source target) :
    Rekeyed id source target files
      ((moves.filterMap (fun move =>
        (files.get move.1).map (fun entry => (move.2, entry)))).foldl
          (fun files entry => files.set entry.1 entry.2)
          ((moves.map Prod.fst).foldl PlaceFiles.delete files)) := by
  have hentry : forall {k : EntryKey} {file : PlaceFile}, (k, file) ∈ moves.filterMap (fun move =>
      (files.get move.1).map (fun entry => (move.2, entry))) ->
      exists rest flavor, k = ⟨target ++ slash :: rest, flavor⟩ ∧
        files.get ⟨source ++ slash :: rest, flavor⟩ = some file := by
    intro k file hmem
    rcases List.mem_filterMap.mp hmem with ⟨move, hmove, hmap⟩
    rcases Option.map_eq_some_iff.mp hmap with ⟨found, hfound, heq⟩
    rcases (h.mem_iff hderived).mp hmove with ⟨rest, flavor, _, _, hpair⟩
    rw [hpair] at hfound heq
    have hfile : found = file := congrArg Prod.snd heq
    refine ⟨rest, flavor, (congrArg Prod.fst heq).symm, ?_⟩
    rw [← hfile]
    exact hfound
  have hother : forall {k : EntryKey}, ¬ Above slash target k.source ->
      lastOf k (moves.filterMap (fun move =>
        (files.get move.1).map (fun entry => (move.2, entry)))) = none := by
    intro k hk
    rw [lastOf_eq_none]
    intro hmem
    rcases List.mem_map.mp hmem with ⟨entry, hin, heq⟩
    rcases hentry hin with ⟨rest, flavor, hkey, _⟩
    apply hk
    rw [← heq, hkey]
    exact ⟨rest, rfl⟩
  apply h.rekeyed hderived hapart
  · intro move file hmove hfile
    rw [get_foldl_set]
    rcases (h.mem_iff hderived).mp hmove with ⟨rest, flavor, _, _, hpair⟩
    have hlast := lastOf_of_mem
      (List.mem_filterMap.mpr ⟨move, hmove, by rw [hfile]; rfl⟩ :
        (move.2, file) ∈ moves.filterMap (fun move =>
          (files.get move.1).map (fun entry => (move.2, entry))))
      (fun other hmem => by
        rcases hentry hmem with ⟨rest', flavor', hkey, hget⟩
        rw [hpair] at hkey hfile
        have hrest : target ++ slash :: rest = target ++ slash :: rest' :=
          congrArg EntryKey.source hkey
        have hflavor : flavor = flavor' := congrArg EntryKey.flavor hkey
        rw [← (List.cons.inj (List.append_cancel_left hrest)).2, ← hflavor, hfile] at hget
        exact (Option.some.inj hget).symm)
    rw [hlast]
    rfl
  · intro move hmove
    have hfst : move.1 ∈ moves.map Prod.fst := List.mem_map_of_mem hmove
    rw [get_foldl_set, get_foldl_delete, if_pos hfst,
      hother (hapart.disjoint (h.old_below hderived hfst))]
    rfl
  · intro k hfst hsnd
    have hlast : lastOf k (moves.filterMap (fun move =>
        (files.get move.1).map (fun entry => (move.2, entry)))) = none := by
      rw [lastOf_eq_none]
      intro hmem
      rcases List.mem_map.mp hmem with ⟨entry, hin, heq⟩
      rcases List.mem_filterMap.mp hin with ⟨move, hmove, hmap⟩
      rcases Option.map_eq_some_iff.mp hmap with ⟨_, _, hentry'⟩
      apply hsnd
      rw [← heq, ← hentry']
      exact List.mem_map_of_mem hmove
    rw [get_foldl_set, get_foldl_delete, if_neg hfst, hlast]
    rfl

end MapStore

/-!
# The shared store
-/

namespace SabStore

variable {place : Place} {files : Files} {source target : Key}
  {moves : List (EntryKey × EntryKey)}

/-- Every move that was placed has its copy. -/
theorem copiesOf_eq {env : Env} {copies : List Copy}
    (h : copiesOf files env moves = Except.ok copies) :
    copies = moves.filterMap (fun move =>
      (files.get move.1).map (fun file => (move.1, move.2, copyOf file))) := by
  induction moves generalizing copies with
  | nil =>
      rw [copiesOf, Except.ok.injEq] at h
      exact h.symm
  | cons move rest ih =>
      unfold copiesOf at h
      rw [List.filterMap_cons]
      cases hget : files.get move.1 with
      | none =>
          rw [hget] at h
          cases h
      | some file =>
          rw [hget] at h
          dsimp only at h
          by_cases hfits : env.fits move.2 = true
          · rw [if_pos hfits] at h
            rcases Place.bind_ok.mp h with ⟨tail, htail, heq⟩
            rw [← Except.ok.inj heq, ih htail]
            rfl
          · rw [if_neg hfits] at h
            cases h

theorem mem_treeCopies {change : Change} :
    change ∈ treeChanges (moves.filterMap (fun move =>
      (files.get move.1).map (fun file => (move.1, move.2, copyOf file)))) <->
      exists move file, move ∈ moves ∧ files.get move.1 = some file ∧
        (change = (move.1, none) ∨ change = (move.2, some (copyOf file))) := by
  unfold treeChanges
  rw [List.mem_flatMap]
  constructor
  · intro hmem
    rcases hmem with ⟨copy, hcopy, hchange⟩
    rcases List.mem_filterMap.mp hcopy with ⟨move, hmove, hmap⟩
    rcases Option.map_eq_some_iff.mp hmap with ⟨file, hfile, heq⟩
    rw [← heq] at hchange
    refine ⟨move, file, hmove, hfile, ?_⟩
    rcases List.mem_cons.mp hchange with hold | hnew
    · exact Or.inl hold
    · exact Or.inr (List.mem_singleton.mp hnew)
  · intro hex
    rcases hex with ⟨move, file, hmove, hfile, hchange⟩
    refine ⟨(move.1, move.2, copyOf file), ?_, ?_⟩
    · exact List.mem_filterMap.mpr ⟨move, hmove, by rw [hfile]; rfl⟩
    · rcases hchange with hold | hnew
      · rw [hold]
        exact List.mem_cons_self
      · rw [hnew]
        exact List.mem_cons_of_mem _ List.mem_cons_self

/-- Copies lie under the new keys. -/
theorem moveTree_rekeyed (h : Place.Movable place files source target moves)
    (hderived : Derived place files) (hapart : Apart source target) {env : Env}
    {copies : List Copy} (hcopies : copiesOf files env moves = Except.ok copies) :
    Rekeyed copyOf source target files (flush files (treeChanges copies)) := by
  rw [copiesOf_eq hcopies]
  apply h.rekeyed hderived hapart
  · intro move file hmove hfile
    have hbelow := h.new_below hderived (List.mem_map_of_mem hmove : move.2 ∈ moves.map Prod.snd)
    have hlast := lastOf_of_mem
      (mem_treeCopies.mpr ⟨move, file, hmove, hfile, Or.inr rfl⟩)
      (fun other hmem => by
        rcases mem_treeCopies.mp hmem with ⟨move', file', hmove', hfile', hold | hnew⟩
        · have hkey : move.2 = move'.1 := congrArg Prod.fst hold
          rw [hkey] at hbelow
          exact absurd hbelow (hapart.disjoint (h.old_below hderived (List.mem_map_of_mem hmove')))
        · rcases (h.mem_iff hderived).mp hmove with ⟨rest, flavor, _, _, hpair⟩
          rcases (h.mem_iff hderived).mp hmove' with ⟨rest', flavor', _, _, hpair'⟩
          have hkey : move.2 = move'.2 := congrArg Prod.fst hnew
          rw [hpair, hpair'] at hkey
          have hrest : target ++ slash :: rest = target ++ slash :: rest' :=
            congrArg EntryKey.source hkey
          have hflavor : flavor = flavor' := congrArg EntryKey.flavor hkey
          rw [hpair] at hfile
          rw [hpair', ← (List.cons.inj (List.append_cancel_left hrest)).2, ← hflavor,
            hfile] at hfile'
          have hvalue : other = some (copyOf file') := congrArg Prod.snd hnew
          rw [hvalue, Option.some.inj hfile'])
    rw [get_flush, hlast]
  · intro move hmove
    have hbelow := h.old_below hderived (List.mem_map_of_mem hmove : move.1 ∈ moves.map Prod.fst)
    rcases (h.mem_iff hderived).mp hmove with ⟨rest, flavor, file, hfile, hpair⟩
    have hget : files.get move.1 = some file := by
      rw [hpair]
      exact hfile
    have hlast := lastOf_of_mem
      (mem_treeCopies.mpr ⟨move, file, hmove, hget, Or.inl rfl⟩)
      (fun other hmem => by
        rcases mem_treeCopies.mp hmem with ⟨move', file', hmove', _, hold | hnew⟩
        · exact congrArg Prod.snd hold
        · have hkey : move.1 = move'.2 := congrArg Prod.fst hnew
          rw [hkey] at hbelow
          exact absurd (h.new_below hderived (List.mem_map_of_mem hmove'))
            (hapart.disjoint hbelow))
    rw [get_flush, hlast]
  · intro k hfst hsnd
    have hlast : lastOf k (treeChanges (moves.filterMap (fun move =>
        (files.get move.1).map (fun file => (move.1, move.2, copyOf file))))) = none := by
      rw [lastOf_eq_none]
      intro hmem
      rcases List.mem_map.mp hmem with ⟨change, hchange, heq⟩
      rcases mem_treeCopies.mp hchange with ⟨move, file, hmove, _, hold | hnew⟩
      · apply hfst
        rw [← heq, hold]
        exact List.mem_map_of_mem hmove
      · apply hsnd
        rw [← heq, hnew]
        exact List.mem_map_of_mem hmove
    rw [get_flush, hlast]

end SabStore

end SharedMemoryFs
