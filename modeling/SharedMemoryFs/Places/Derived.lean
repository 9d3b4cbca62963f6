import SharedMemoryFs.Places.Rekeying
import SharedMemoryFs.Places.Overlap

/-!
# Companions follow their sources

In every state a store reaches, an entry that is no source has its source beside it
and is one of the companions the place drops with it.
-/

namespace SharedMemoryFs

open Foundation PlaceFiles

variable {place : Place} {files : Files} {source target : Key}

/-- The companions of a key are those of any other key under the same flavors. -/
theorem Place.companion_rekey {key key' : Key} {flavor : Option Flavor}
    (h : (⟨key, flavor⟩ : EntryKey) ∈ place.companions key) :
    (⟨key', flavor⟩ : EntryKey) ∈ place.companions key' := by
  unfold Place.companions PlaceConfig.companions at h ⊢
  rcases List.mem_append.mp h with hcode | hcompressed
  · apply List.mem_append_left
    rcases List.mem_append.mp hcode with hrequire | hscript
    · apply List.mem_append_left
      split_ifs at hrequire ⊢
      · have hflavor : flavor = some (Flavor.bytecode BytecodeDomain.require) :=
          congrArg EntryKey.flavor (List.mem_singleton.mp hrequire)
        rw [hflavor]
        exact List.mem_singleton.mpr rfl
      · cases hrequire
    · apply List.mem_append_right
      split_ifs at hscript ⊢
      · have hflavor : flavor = some (Flavor.bytecode BytecodeDomain.script) :=
          congrArg EntryKey.flavor (List.mem_singleton.mp hscript)
        rw [hflavor]
        exact List.mem_singleton.mpr rfl
      · cases hscript
  · apply List.mem_append_right
    rcases List.mem_map.mp hcompressed with ⟨codec, hcodec, heq⟩
    have hflavor : some (Flavor.compressed codec.encoding) = flavor :=
      congrArg EntryKey.flavor heq
    rw [← hflavor]
    exact List.mem_map_of_mem hcodec

theorem Derived.empty : Derived place PlaceFiles.empty := by
  intro k file hget
  cases hget

/-- Entries keep their companions where they move. -/
theorem Rekeyed.derived {moved : PlaceFile -> PlaceFile} {new : Files}
    (h : Rekeyed moved source target files new) (hapart : Apart source target)
    (hderived : Derived place files) : Derived place new := by
  intro k file hget hflavor
  rcases k with ⟨key, flavor⟩
  by_cases htarget : Above slash target key
  · rcases htarget with ⟨rest, hrest⟩
    rw [hrest] at hget ⊢
    rw [h.inside] at hget
    rcases Option.map_eq_some_iff.mp hget with ⟨old, hold, _⟩
    rcases hderived _ old hold hflavor with ⟨hhas, hcompanion⟩
    rcases hasSource_iff.mp hhas with ⟨found, hfound⟩
    constructor
    · apply hasSource_iff.mpr
      refine ⟨moved found, (h.inside rest none).trans ?_⟩
      have hat : files.get ⟨source ++ slash :: rest, none⟩ = some found := hfound
      rw [hat]
      rfl
    · exact Place.companion_rekey hcompanion
  · by_cases hsource : Above slash source key
    · rcases hsource with ⟨rest, hrest⟩
      rw [hrest, h.gone] at hget
      cases hget
    · rw [h.kept key flavor hsource htarget] at hget
      rcases hderived _ file hget hflavor with ⟨hhas, hcompanion⟩
      rcases hasSource_iff.mp hhas with ⟨found, hfound⟩
      exact ⟨hasSource_iff.mpr ⟨found, (h.kept key none hsource htarget).trans hfound⟩,
        hcompanion⟩

/-!
# The map store
-/

namespace MapStore

variable {key : Key}

theorem Derived.remove (h : Derived place files) (key : Key) :
    Derived place (remove place files key) := by
  intro k file hget hflavor
  rw [get_remove] at hget
  by_cases hk : k = EntryKey.ofSource key ∨ k ∈ place.companions key
  · rw [if_pos hk] at hget
    cases hget
  · rw [if_neg hk] at hget
    rcases h k file hget hflavor with ⟨hhas, hcompanion⟩
    have hne : k.source ≠ key := by
      intro heq
      rw [heq] at hcompanion
      exact hk (Or.inr hcompanion)
    exact ⟨(hasSource_remove k.source).mpr ⟨hne, hhas⟩, hcompanion⟩

theorem Derived.foldl_remove (h : Derived place files) (keys : List Key) :
    Derived place (keys.foldl (MapStore.remove place) files) := by
  induction keys generalizing files with
  | nil => exact h
  | cons key rest ih => exact ih (Derived.remove h key)

theorem Derived.publish (h : Derived place files) {input : PlaceFile} {published : Files}
    (hpublish : publish place files key input = Except.ok published) :
    Derived place published := by
  intro k file hget hflavor
  rw [get_publish hpublish] at hget
  rcases Option.or_eq_some_iff.mp hget with hbuilt | ⟨_, hrest⟩
  · rcases List.mem_map.mp (lastOf_mem hbuilt) with ⟨⟨ck, data⟩, hcode, heq⟩
    rcases mem_compiled.mp hcode with ⟨code, hc, hkey, _⟩
    have hk : k = bytecodeKey key code.domain := by
      rw [← (code_key hc).2.1, hkey]
      exact (congrArg Prod.fst heq).symm
    rw [hk]
    exact ⟨(hasSource_publish hpublish key).mpr (Or.inl rfl),
      Place.code_mem_companions (code_key hc).1⟩
  · by_cases hcompanion : k ∈ place.companions key
    · rw [if_pos hcompanion] at hrest
      cases hrest
    · rw [if_neg hcompanion] at hrest
      by_cases hk : k = EntryKey.ofSource key
      · rw [hk] at hflavor
        exact absurd rfl hflavor
      · rw [if_neg hk] at hrest
        rcases h k file hrest hflavor with ⟨hhas, hmem⟩
        exact ⟨(hasSource_publish hpublish k.source).mpr (Or.inr hhas), hmem⟩

theorem Derived.overwrite (h : Derived place files) {current : PlaceFile} {raw : Bytes}
    (hcurrent : files.get (EntryKey.ofSource source) = some current) :
    Derived place (MapStore.overwrite files source current raw) := by
  intro k file hget hflavor
  rw [get_overwrite] at hget
  by_cases hk : k = EntryKey.ofSource source
  · rw [hk] at hflavor
    exact absurd rfl hflavor
  · rw [if_neg hk] at hget
    rw [hasSource_overwrite hcurrent]
    exact h k file hget hflavor

theorem Derived.publishRaw (h : Derived place files) (key : Key) (raw : Bytes) (now : Nat) :
    Derived place (MapStore.publishRaw place files key raw now).1 := by
  rcases publishRaw_cases place files key raw now with heq | ⟨input, hpublish⟩
  · rw [heq]
    exact h
  · exact Derived.publish h hpublish

theorem Derived.write (h : Derived place files) (key : Key) (data : Bytes) (exclusive : Bool)
    (now : Nat) : Derived place (MapStore.write place files key data exclusive now).1 := by
  unfold MapStore.write
  dsimp only
  cases (if exclusive = true then
      Place.checkExclusive files key (place.failOn Syscall.openFile key)
    else Except.ok ()) with
  | error refusal => exact h
  | ok _ =>
      cases Place.checkHierarchy files key (place.failOn Syscall.openFile key) [] with
      | error refusal => exact h
      | ok _ => exact Derived.publishRaw h key data now

theorem Derived.append (h : Derived place files) (key : Key) (data : Bytes) (now : Nat) :
    Derived place (MapStore.append place files key data now).1 := by
  unfold MapStore.append
  dsimp only
  by_cases hprepared : (place.prepared key).isSome = true
  · rw [if_pos hprepared]
    exact h
  · rw [if_neg hprepared]
    cases Place.checkHierarchy files key (place.failOn Syscall.openFile key) [] with
    | error refusal => exact h
    | ok _ => exact Derived.publishRaw h key _ now

theorem Derived.unlink (h : Derived place files) (key : Key) (directory : Bool) :
    Derived place (MapStore.unlink place files key directory).1 := by
  unfold MapStore.unlink
  dsimp only
  split_ifs
  · exact Derived.remove h key
  · exact h
  · exact h

theorem Derived.rm (h : Derived place files) (key : Key) (directory force recursive : Bool) :
    Derived place (MapStore.rm place files key directory force recursive).1 := by
  unfold MapStore.rm
  dsimp only
  split_ifs
  · exact Derived.remove h key
  · exact h
  · exact h
  · exact h
  · exact Derived.foldl_remove h _

theorem Derived.renameFile (h : Derived place files) {current : PlaceFile}
    (hcurrent : files.get (EntryKey.ofSource source) = some current) (target : Key) :
    Derived place (MapStore.renameFile place files source target current).1 := by
  unfold MapStore.renameFile
  cases Place.checkHierarchy files target (place.failRename source target) [] with
  | error refusal => exact h
  | ok _ =>
      have hwritten : forall raw, Derived place (MapStore.overwrite files source current raw) :=
        fun raw => Derived.overwrite h hcurrent
      dsimp only
      cases (input place target current.data Syscall.rename current.stat.mtimeMs).2 with
      | error refusal => exact hwritten _
      | ok prepared =>
          dsimp only
          cases hpublish : MapStore.publish place (MapStore.overwrite files source current
              (input place target current.data Syscall.rename current.stat.mtimeMs).1)
              target prepared with
          | error refusal => exact hwritten _
          | ok published => exact Derived.remove (Derived.publish (hwritten _) hpublish) source

theorem Derived.moveTree (h : Derived place files) (hfiles : files.WellFormed)
    (hsource : Plain source) (htarget : Plain target) :
    Derived place (MapStore.moveTree place files source target).1 := by
  rcases moveTree_cases place files source target with heq | ⟨moves, hmoves, heq⟩
  · rw [heq]
    exact h
  · rw [heq]
    rcases Place.subtreeMoves_ok hfiles hsource htarget hmoves with ⟨_, hnil⟩ | hmovable
    · rw [hnil]
      exact h
    · rcases Place.subtreeMoves_inhabited hfiles hsource hmoves with ⟨key, hkey, hbelow⟩
      have hapart := hmovable.apart hkey hbelow
      exact (moveTree_rekeyed hmovable h hapart).derived hapart h

theorem Derived.rename (h : Derived place files) (hfiles : files.WellFormed)
    (hsource : Plain source) (htarget : Plain target) (directory : Bool) :
    Derived place (MapStore.rename place files source target directory).1 := by
  unfold MapStore.rename
  cases hcurrent : files.get (EntryKey.ofSource source) with
  | none =>
      dsimp only
      split_ifs
      · exact Derived.moveTree h hfiles hsource htarget
      · exact h
      · exact h
  | some current =>
      dsimp only
      split_ifs
      · exact h
      · exact h
      · exact h
      · exact Derived.renameFile h hcurrent target

theorem Derived.run (h : Derived place files) (hfiles : files.WellFormed) (now : Nat)
    {op : Mutation} (hop : op.Canonical) : Derived place (MapStore.run place files now op).1 := by
  have hplain : forall key, key ∈ op.keys -> Plain key :=
    fun key hkey => canonicalKey_plain (hop key hkey)
  cases op with
  | write key data exclusive => exact Derived.write h key data exclusive now
  | append key data => exact Derived.append h key data now
  | unlink key directory => exact Derived.unlink h key directory
  | mkdir key recursive => exact h
  | rm key directory force recursive => exact Derived.rm h key directory force recursive
  | rename source target directory =>
      exact Derived.rename h hfiles (hplain source (by simp [Mutation.keys]))
        (hplain target (by simp [Mutation.keys])) directory

theorem Reachable.derived (h : Reachable place PlaceFiles.empty files) : Derived place files := by
  induction h with
  | initial => exact Derived.empty
  | run now op hreach hop ih => exact Derived.run ih (hreach.kept Kept.empty).wellFormed now hop

end MapStore

/-!
# The shared store
-/

namespace SabStore

variable {key : Key}

/-- A stored source changes itself and companions of its own. -/
theorem storeShared_companion {input : PlaceFile} {env : Env} {changes : List Change}
    (h : storeShared place key input env = Except.ok changes) {change : Change}
    (hchange : change ∈ changes) (hflavor : change.1.flavor ≠ none) :
    change.1 ∈ place.companions key := by
  unfold storeShared at h
  split_ifs at h with hfits
  rcases Place.bind_ok.mp h with ⟨codes, hcodes, heq⟩
  rw [← Except.ok.inj heq] at hchange
  have hbuilt : change ∈ codes ++ compressedChanges place key input env := by
    rcases List.mem_cons.mp hchange with hself | hrest
    · rw [hself] at hflavor
      exact absurd rfl hflavor
    · rcases List.mem_append.mp hrest with hmem | hmem
      · exact (List.mem_filter.mp hmem).1
      · exact (List.mem_filter.mp hmem).1
  rcases List.mem_append.mp hbuilt with hcode | hcompressed
  · have hmem : change.1 ∈ (place.bytecodeFor key input.data input.scriptOptions).map
        Place.Code.key := by
      rw [← bytecodeChanges_keys hcodes]
      exact List.mem_map_of_mem hcode
    rcases List.mem_map.mp hmem with ⟨code, hc, hkey⟩
    rw [← hkey, (MapStore.code_key hc).2.1]
    exact Place.code_mem_companions (MapStore.code_key hc).1
  · unfold compressedChanges at hcompressed
    split_ifs at hcompressed with hcompressible
    · rcases List.mem_map.mp hcompressed with ⟨codec, hcodec, hkey⟩
      rw [← hkey]
      exact List.mem_append_right _ (List.mem_map_of_mem hcodec)
    · cases hcompressed

/-- Sources that go take their companions along. -/
theorem Derived.unstaged (h : Derived place files) (keys : List Key) :
    Derived place (flush files (unstaged place keys)) := by
  intro k file hget hflavor
  rw [get_flush, lastOf_unstaged] at hget
  split_ifs at hget with hgone
  rcases h k file hget hflavor with ⟨hhas, hcompanion⟩
  refine ⟨?_, hcompanion⟩
  apply hasSource_flush.mpr
  refine Or.inr ⟨?_, hhas⟩
  rw [lastOf_unstaged_source, if_neg]
  intro hkey
  exact hgone ⟨k.source, hkey, Or.inr hcompanion⟩

theorem Derived.publication (h : Derived place files) {input : PlaceFile} {removed : List Key}
    {env : Env} {changes : List Change}
    (hstore : storeShared place key input env = Except.ok changes) :
    Derived place (flush files (SabStore.unstaged place removed ++ changes)) := by
  intro k file hget hflavor
  have hpublished : (flush files (SabStore.unstaged place removed ++ changes)).hasSource key =
      true := by
    apply hasSource_flush.mpr
    exact Or.inl ⟨input, (lastOf_publication_source hstore key).trans (if_pos rfl)⟩
  rw [get_flush, lastOf_append] at hget
  cases hlast : lastOf k changes with
  | some change =>
      have hcompanion := storeShared_companion hstore (lastOf_mem hlast) hflavor
      have hsource : k.source = key := (Place.source_of_companion hcompanion).1
      rw [hsource]
      exact ⟨hpublished, hcompanion⟩
  | none =>
      rw [hlast, Option.none_or, lastOf_unstaged] at hget
      split_ifs at hget with hgone
      rcases h k file hget hflavor with ⟨hhas, hcompanion⟩
      refine ⟨?_, hcompanion⟩
      by_cases hkey : k.source = key
      · rw [hkey]
        exact hpublished
      · apply hasSource_flush.mpr
        refine Or.inr ⟨?_, hhas⟩
        rw [lastOf_publication_source hstore, if_neg hkey, if_neg]
        intro hremoved
        exact hgone ⟨k.source, hremoved, Or.inr hcompanion⟩

theorem Derived.tree (h : Derived place files) (hfiles : files.WellFormed)
    (hsource : Plain source) (htarget : Plain target) {creating : List Key}
    {moves : List (EntryKey × EntryKey)} {env : Env} {copies : List Copy}
    (hmoves : place.subtreeMoves files source target creating = Except.ok moves)
    (hcopies : copiesOf files env moves = Except.ok copies) :
    Derived place (flush files (treeChanges copies)) := by
  rcases Place.subtreeMoves_ok hfiles hsource htarget hmoves with ⟨_, hnil⟩ | hmovable
  · rw [copiesOf_eq hcopies, hnil]
    exact h
  · rcases Place.subtreeMoves_inhabited hfiles hsource hmoves with ⟨key, hkey, hbelow⟩
    have hapart := hmovable.apart hkey hbelow
    exact (moveTree_rekeyed hmovable h hapart hcopies).derived hapart h

end SabStore

namespace SabPlace

variable {s s' : SabPlace}

theorem Derived.start (h : Derived place s.files) (id : Nat) (task : MutationTask) (now : Nat) :
    Derived place (s.start place id task now).files := by
  unfold SabPlace.start
  cases hstart : SabStore.start place s.files s.creating task.queue.keys.isSome now task.op with
  | error refusal => exact h
  | ok plan =>
      cases plan with
      | now changes =>
          rcases SabStore.start_now hstart with ⟨keys, hchanges, _⟩
          rw [hchanges]
          exact SabStore.Derived.unstaged h keys
      | publish target input removed =>
          cases input with
          | error refusal => exact h
          | ok input => exact h
      | move moves => exact h

theorem Derived.step (hoverlap : Overlap place PlaceFiles.empty s) (h : Derived place s.files)
    (hstep : Step place s s') : Derived place s'.files := by
  cases hstep with
  | request op hop => exact h
  | start id task now ht hqueued hprior => exact Derived.start h id task now
  | copy id task copies move rest now file ht hstatus hfile => exact h
  | commit id task target input removed env changes ht hstatus hstore =>
      exact SabStore.Derived.publication h hstore
  | commitTree id task copies now ht hstatus =>
      have hvalid := hoverlap.valid id task ht
      rw [hstatus] at hvalid
      rcases hvalid with ⟨moves, hstart, hcopies⟩
      rw [List.append_nil] at hstart
      rcases SabStore.start_move hstart with ⟨_, source, target, directory, hop, hmoves⟩
      have hsource : Plain source := hoverlap.plain_keys ht (by rw [hop]; simp [Mutation.keys])
      have htarget : Plain target := hoverlap.plain_keys ht (by rw [hop]; simp [Mutation.keys])
      exact SabStore.Derived.tree h hoverlap.wellFormed hsource htarget hmoves hcopies
  | fail id task target input removed now refusal ht hstatus => exact h
  | failTree id task copies rest now refusal ht hstatus => exact h
  | settle id task creating result ht hstatus => exact h
  | release id task result ht hstatus => exact h

theorem Reachable.derived (h : Reachable place PlaceFiles.empty s) : Derived place s.files := by
  induction h with
  | initial => exact SharedMemoryFs.Derived.empty
  | step hreach hstep ih => exact Derived.step (hreach.overlap MapStore.Kept.empty) ih hstep

end SabPlace

end SharedMemoryFs
