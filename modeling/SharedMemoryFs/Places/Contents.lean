import SharedMemoryFs.Places.SabStore

/-!
# What a mutation leaves

For each way a store changes the projection: the entry it leaves under every
key, and that the directory index stays right.
-/

namespace SharedMemoryFs

open Foundation

/-- The projection of a place as the stores keep it. -/
structure PlaceFiles.WellFormed (files : Files) : Prop where
  indexed : files.Indexed
  rooted : files.Rooted

namespace PlaceFiles

variable {files : Files}

theorem empty_wellFormed : (PlaceFiles.empty : Files).WellFormed :=
  ⟨empty_indexed, empty_rooted⟩

theorem WellFormed.set (h : files.WellFormed) {key : EntryKey} (entry : PlaceFile)
    (hkey : exists rest, key.source = slash :: rest) : (files.set key entry).WellFormed :=
  ⟨set_indexed h.indexed key entry hkey, set_rooted h.rooted key entry hkey⟩

theorem WellFormed.delete (h : files.WellFormed) (key : EntryKey) :
    (files.delete key).WellFormed :=
  ⟨delete_indexed h.indexed h.rooted key, delete_rooted h.rooted key⟩

theorem WellFormed.foldl_delete (h : files.WellFormed) (keys : List EntryKey) :
    (keys.foldl PlaceFiles.delete files).WellFormed := by
  induction keys generalizing files with
  | nil => exact h
  | cons key rest ih => exact ih (h.delete key)

theorem get_foldl_delete (keys : List EntryKey) (files : Files) (k : EntryKey) :
    (keys.foldl PlaceFiles.delete files).get k = if k ∈ keys then none else files.get k := by
  induction keys generalizing files with
  | nil => simp
  | cons key rest ih =>
      rw [List.foldl_cons, ih, get_delete]
      by_cases hrest : k ∈ rest
      · rw [if_pos hrest, if_pos (List.mem_cons_of_mem key hrest)]
      · by_cases hk : k = key
        · rw [if_neg hrest, if_pos hk, hk, if_pos List.mem_cons_self]
        · rw [if_neg hrest, if_neg hk, if_neg (by simp [hk, hrest])]

/-- The last of several entries for one key. -/
def lastOf {alpha : Type} (k : EntryKey) : List (EntryKey × alpha) -> Option alpha
  | [] => none
  | entry :: rest =>
      match lastOf k rest with
      | some value => some value
      | none => if entry.1 = k then some entry.2 else none

section LastOf

variable {alpha : Type} {k : EntryKey} {entries : List (EntryKey × alpha)}

theorem lastOf_mem {value : alpha} (h : lastOf k entries = some value) :
    (k, value) ∈ entries := by
  induction entries with
  | nil => cases h
  | cons entry rest ih =>
      rw [lastOf] at h
      cases hrest : lastOf k rest with
      | some v =>
          rw [hrest] at h
          exact List.mem_cons_of_mem _ (ih (hrest.trans h))
      | none =>
          rw [hrest] at h
          by_cases hk : entry.1 = k
          · rw [if_pos hk, Option.some.injEq] at h
            rw [← hk, ← h]
            exact List.mem_cons_self
          · rw [if_neg hk] at h
            cases h

theorem lastOf_eq_none : lastOf k entries = none <-> k ∉ entries.map Prod.fst := by
  induction entries with
  | nil => simp [lastOf]
  | cons entry rest ih =>
      rw [lastOf, List.map_cons, List.mem_cons, not_or]
      cases hrest : lastOf k rest with
      | some v =>
          rw [hrest] at ih
          constructor
          · intro h
            cases h
          · intro h
            exact absurd (ih.mpr h.2) (by simp)
      | none =>
          rw [hrest] at ih
          by_cases hk : entry.1 = k
          · simp [hk]
          · simp only [if_neg hk, true_iff]
            exact ⟨fun h => hk h.symm, ih.mp rfl⟩

theorem lastOf_append (more : List (EntryKey × alpha)) :
    lastOf k (entries ++ more) = (lastOf k more).or (lastOf k entries) := by
  induction entries with
  | nil => cases h : lastOf k more <;> simp [lastOf, h]
  | cons entry rest ih =>
      rw [List.cons_append, lastOf, ih, lastOf]
      cases lastOf k more with
      | some v => rfl
      | none => rfl

/-- Among entries that agree on a key, the last is any of them. -/
theorem lastOf_of_mem {value : alpha} (h : (k, value) ∈ entries)
    (hsame : forall v, (k, v) ∈ entries -> v = value) : lastOf k entries = some value := by
  cases hlast : lastOf k entries with
  | none =>
      rw [lastOf_eq_none] at hlast
      exact absurd (List.mem_map_of_mem h) hlast
  | some v => rw [hsame v (lastOf_mem hlast)]

end LastOf

theorem get_foldl_set (entries : List (EntryKey × PlaceFile)) (files : Files) (k : EntryKey) :
    (entries.foldl (fun files entry => files.set entry.1 entry.2) files).get k =
      (lastOf k entries).or (files.get k) := by
  induction entries generalizing files with
  | nil => rfl
  | cons entry rest ih =>
      rw [List.foldl_cons, ih, get_set, lastOf]
      cases lastOf k rest with
      | some v => rfl
      | none =>
          by_cases hk : entry.1 = k
          · rw [if_pos hk.symm, if_pos hk]
            rfl
          · rw [if_neg (fun h => hk h.symm), if_neg hk]

theorem WellFormed.foldl_set (h : files.WellFormed) {entries : List (EntryKey × PlaceFile)}
    (hrooted : forall entry, entry ∈ entries -> exists rest, entry.1.source = slash :: rest) :
    (entries.foldl (fun files entry => files.set entry.1 entry.2) files).WellFormed := by
  induction entries generalizing files with
  | nil => exact h
  | cons entry rest ih =>
      exact ih (h.set entry.2 (hrooted entry List.mem_cons_self))
        (fun e he => hrooted e (List.mem_cons_of_mem _ he))

end PlaceFiles

open PlaceFiles

/-!
# Companions
-/

theorem Place.source_of_companion {place : Place} {key : Key} {k : EntryKey}
    (h : k ∈ place.companions key) : k.source = key ∧ k.flavor ≠ none :=
  source_of_mem_companions h

theorem Place.ofSource_not_companion {place : Place} {key k : Key} :
    EntryKey.ofSource k ∉ place.companions key :=
  fun h => (place.source_of_companion h).2 rfl

theorem Place.code_mem_companions {place : Place} {key : Key} {domain : BytecodeDomain}
    (h : domain ∈ place.bytecodeDomains key) : bytecodeKey key domain ∈ place.companions key := by
  refine @flavor_mem_companions place.fileExt _ _ _ ?_
  exact List.mem_append_left _ (List.mem_map_of_mem h)

/-!
# The map store
-/

namespace MapStore

variable {place : Place} {files : Files} {key : Key}

theorem get_remove (k : EntryKey) :
    (remove place files key).get k =
      if k = EntryKey.ofSource key ∨ k ∈ place.companions key then none else files.get k := by
  unfold remove dropCompanions
  rw [get_foldl_delete, get_delete]
  by_cases hcompanion : k ∈ place.companions key
  · rw [if_pos hcompanion, if_pos (Or.inr hcompanion)]
  · rw [if_neg hcompanion]
    exact if_congr (by simp [hcompanion]) rfl rfl

theorem WellFormed.remove (h : files.WellFormed) : (remove place files key).WellFormed :=
  (h.delete _).foldl_delete _

theorem WellFormed.foldl_remove (h : files.WellFormed) (keys : List Key) :
    (keys.foldl (MapStore.remove place) files).WellFormed := by
  induction keys generalizing files with
  | nil => exact h
  | cons key rest ih => exact ih (WellFormed.remove h)

theorem hasSource_remove (k : Key) :
    (remove place files key).hasSource k = true <-> (k ≠ key ∧ files.hasSource k = true) := by
  rw [hasSource_iff, get_remove, hasSource_iff]
  by_cases hk : k = key
  · rw [hk, if_pos (Or.inl rfl)]
    simp
  · rw [if_neg]
    · simp [hk]
    · intro h
      rcases h with h | h
      · exact hk (ofSource_inj.mp h)
      · exact Place.ofSource_not_companion h

theorem hasSource_foldl_remove (keys : List Key) (k : Key) :
    (keys.foldl (remove place) files).hasSource k = true <->
      (k ∉ keys ∧ files.hasSource k = true) := by
  induction keys generalizing files with
  | nil => simp
  | cons key rest ih =>
      rw [List.foldl_cons, ih, hasSource_remove, List.mem_cons, not_or]
      exact ⟨fun h => ⟨⟨h.2.1, h.1⟩, h.2.2⟩, fun h => ⟨h.1.2, h.1.1, h.2⟩⟩

/-- A script whose cached data is missing. -/
def badScript (code : Place.Code) : Bool :=
  decide (code.domain = BytecodeDomain.script) && code.data.isNone

/-- What the flavors of a source compile to, unless a script does not. -/
def compiled (codes : List Place.Code) : List (EntryKey × Bytes) :=
  codes.filterMap (fun code => code.data.map (fun data => (code.key, data)))

def scriptRefusal (place : Place) (key : Key) : Refusal :=
  place.failOn Syscall.openFile key ErrorCode.enotsup (some "source does not compile")

theorem codesOf_eq (codes : List Place.Code) :
    codesOf place key codes =
      if codes.any badScript then Except.error (scriptRefusal place key)
      else Except.ok (compiled codes) := by
  induction codes with
  | nil => rfl
  | cons code rest ih =>
      unfold codesOf
      rw [ih, List.any_cons]
      cases hdata : code.data with
      | some data =>
          have hgood : badScript code = false := by
            rw [badScript, hdata]
            exact Bool.and_false _
          rw [hgood, Bool.false_or]
          by_cases hrest : rest.any badScript = true
          · rw [if_pos hrest, if_pos hrest]
            rfl
          · rw [if_neg hrest, if_neg hrest]
            simp only [compiled, List.filterMap_cons, hdata, Option.map_some]
            rfl
      | none =>
          by_cases hdomain : code.domain = BytecodeDomain.script
          · simp [badScript, hdata, hdomain, scriptRefusal]
          · simp [badScript, hdata, hdomain, compiled]

theorem mem_compiled {codes : List Place.Code} {k : EntryKey} {data : Bytes} :
    (k, data) ∈ compiled codes <->
      exists code, code ∈ codes ∧ code.key = k ∧ code.data = some data := by
  unfold compiled
  rw [List.mem_filterMap]
  constructor
  · intro h
    rcases h with ⟨code, hcode, hmap⟩
    rcases Option.map_eq_some_iff.mp hmap with ⟨d, hd, heq⟩
    rw [Prod.mk.injEq] at heq
    exact ⟨code, hcode, heq.1, by rw [hd, heq.2]⟩
  · intro h
    rcases h with ⟨code, hcode, hkey, hdata⟩
    exact ⟨code, hcode, by rw [hdata, hkey]; rfl⟩

theorem publish_ok {input : PlaceFile} {published : Files}
    (h : publish place files key input = Except.ok published) :
    published = ((compiled (place.bytecodeFor key input.data input.scriptOptions)).map
      (fun code => (code.1, codeFile input.stat.mtimeMs code.2))).foldl
        (fun files entry => files.set entry.1 entry.2)
        (dropCompanions place (files.set (EntryKey.ofSource key) input) key) := by
  rcases Place.bind_ok.mp h with ⟨codes, hcodes, hpublished⟩
  rw [codesOf_eq] at hcodes
  by_cases hbad : (place.bytecodeFor key input.data input.scriptOptions).any badScript = true
  · rw [if_pos hbad] at hcodes
    cases hcodes
  · rw [if_neg hbad, Except.ok.injEq] at hcodes
    rw [← Except.ok.inj hpublished, ← hcodes, List.foldl_map]

theorem code_key {data : Bytes} {options : Option Cloneable} {code : Place.Code}
    (h : code ∈ place.bytecodeFor key data options) :
    code.domain ∈ place.bytecodeDomains key ∧ code.key = bytecodeKey key code.domain ∧
      code.data = place.createBytecode key data options code.domain := by
  rcases List.mem_map.mp h with ⟨domain, hdomain, rfl⟩
  exact ⟨hdomain, rfl, rfl⟩

/-- What a publication leaves under each key. -/
theorem get_publish {input : PlaceFile} {published : Files}
    (h : publish place files key input = Except.ok published) (k : EntryKey) :
    published.get k =
      (lastOf k ((compiled (place.bytecodeFor key input.data input.scriptOptions)).map
        (fun code => (code.1, codeFile input.stat.mtimeMs code.2)))).or
      (if k ∈ place.companions key then none
        else if k = EntryKey.ofSource key then some input else files.get k) := by
  rw [publish_ok h, get_foldl_set, dropCompanions, get_foldl_delete, get_set]

/-- No flavor is stored under a source key. -/
theorem lastOf_compiled_source {input : PlaceFile} (k : Key) :
    lastOf (EntryKey.ofSource k)
      ((compiled (place.bytecodeFor key input.data input.scriptOptions)).map
        (fun code => (code.1, codeFile input.stat.mtimeMs code.2))) = none := by
  rw [lastOf_eq_none, List.map_map]
  intro hmem
  rcases List.mem_map.mp hmem with ⟨⟨ck, data⟩, hcode, hk⟩
  rcases mem_compiled.mp hcode with ⟨code, hc, hkey, _⟩
  have heq : bytecodeKey key code.domain = EntryKey.ofSource k := by
    rw [← (code_key hc).2.1, hkey]
    exact hk
  exact absurd (congrArg EntryKey.flavor heq) (by simp [bytecodeKey, EntryKey.ofSource])

theorem get_publish_source {input : PlaceFile} {published : Files}
    (h : publish place files key input = Except.ok published) (k : Key) :
    published.get (EntryKey.ofSource k) =
      if k = key then some input else files.get (EntryKey.ofSource k) := by
  rw [get_publish h, lastOf_compiled_source, if_neg Place.ofSource_not_companion]
  exact if_congr ofSource_inj rfl rfl

theorem hasSource_publish {input : PlaceFile} {published : Files}
    (h : publish place files key input = Except.ok published) (k : Key) :
    published.hasSource k = true <-> (k = key ∨ files.hasSource k = true) := by
  rw [hasSource_iff, get_publish_source h, hasSource_iff]
  by_cases hk : k = key
  · rw [if_pos hk]
    exact ⟨fun _ => Or.inl hk, fun _ => ⟨input, rfl⟩⟩
  · rw [if_neg hk]
    constructor
    · exact Or.inr
    · intro hor
      rcases hor with heq | hex
      · exact absurd heq hk
      · exact hex

theorem WellFormed.publish (hfiles : files.WellFormed) (hkey : Plain key) {input : PlaceFile}
    {published : Files} (h : publish place files key input = Except.ok published) :
    published.WellFormed := by
  rw [publish_ok h]
  refine PlaceFiles.WellFormed.foldl_set ((hfiles.set input hkey.1).foldl_delete _) ?_
  intro entry hentry
  rcases List.mem_map.mp hentry with ⟨⟨ck, data⟩, hcode, rfl⟩
  rcases mem_compiled.mp hcode with ⟨code, hc, hck, _⟩
  have hsource : ck.source = key := by
    rw [← hck, (code_key hc).2.1]
    rfl
  rw [hsource]
  exact hkey.1

end MapStore

/-!
# The shared store
-/

namespace SabStore

variable {place : Place} {files : Files} {key : Key}

theorem get_staged (changes : List Change) (k : EntryKey) :
    (staged changes).get k = lastOf k changes := by
  have hfold : forall (changes : List Change) (m : OrderedMap EntryKey (Option PlaceFile)),
      (changes.foldl (fun epoch change => epoch.set change.1 change.2) m).get k =
        (lastOf k changes).or (m.get k) := by
    intro changes
    induction changes with
    | nil => exact fun m => rfl
    | cons change rest ih =>
        intro m
        rw [List.foldl_cons, ih, OrderedMap.get_set, lastOf]
        cases lastOf k rest with
        | some v => rfl
        | none =>
            by_cases hk : change.1 = k
            · rw [if_pos hk.symm, if_pos hk]
              rfl
            · rw [if_neg (fun h => hk h.symm), if_neg hk]
  unfold staged
  rw [hfold]
  cases lastOf k changes <;> rfl

theorem mem_staged {changes : List Change} {change : Change} :
    change ∈ (staged changes).entries <-> lastOf change.1 changes = some change.2 := by
  rw [← get_staged]
  exact OrderedMap.mem_entries_iff

theorem get_foldl_publishEntry {entries : List Change} (hnodup : (entries.map Prod.fst).Nodup)
    (files : Files) (k : EntryKey) :
    (entries.foldl publishEntry files).get k =
      match entries.lookup k with
      | some (some file) => some file
      | _ => files.get k := by
  induction entries generalizing files with
  | nil => rfl
  | cons entry rest ih =>
      rcases entry with ⟨key, change⟩
      have hcons : key ∉ rest.map Prod.fst ∧ (rest.map Prod.fst).Nodup :=
        List.nodup_cons.mp hnodup
      rw [List.foldl_cons, ih hcons.2, OrderedMap.lookup_cons_eq_ite]
      have hstep : (publishEntry files (key, change)).get k =
          if k = key then change.or (files.get k) else files.get k := by
        cases change with
        | none =>
            show files.get k = _
            split_ifs <;> rfl
        | some file => exact get_set files key k file
      by_cases hk : k = key
      · have hnone : rest.lookup k = none := by
          rw [List.lookup_eq_none_iff]
          intro p hp
          rw [hk]
          have hne : key ≠ p.1 := fun heq => hcons.1 (heq ▸ List.mem_map_of_mem hp)
          simpa using hne
        rw [hnone, if_pos hk, hstep, if_pos hk]
        cases change with
        | none => rfl
        | some file => rfl
      · rw [if_neg hk, hstep, if_neg hk]

theorem get_foldl_removeEntry {entries : List Change} (hnodup : (entries.map Prod.fst).Nodup)
    (files : Files) (k : EntryKey) :
    (entries.foldl removeEntry files).get k =
      match entries.lookup k with
      | some none => none
      | _ => files.get k := by
  induction entries generalizing files with
  | nil => rfl
  | cons entry rest ih =>
      rcases entry with ⟨key, change⟩
      have hcons : key ∉ rest.map Prod.fst ∧ (rest.map Prod.fst).Nodup :=
        List.nodup_cons.mp hnodup
      rw [List.foldl_cons, ih hcons.2, OrderedMap.lookup_cons_eq_ite]
      have hstep : (removeEntry files (key, change)).get k =
          if k = key ∧ change = none then none else files.get k := by
        cases change with
        | none =>
            rw [removeEntry]
            simp
        | some file =>
            rw [removeEntry]
            simp
      by_cases hk : k = key
      · have hnone : rest.lookup k = none := by
          rw [List.lookup_eq_none_iff]
          intro p hp
          rw [hk]
          have hne : key ≠ p.1 := fun heq => hcons.1 (heq ▸ List.mem_map_of_mem hp)
          simpa using hne
        rw [hnone, if_pos hk, hstep]
        cases change with
        | none => simp [hk]
        | some file => simp
      · rw [if_neg hk, hstep, if_neg (fun h => hk h.1)]

/-- What a committed epoch leaves under each key: its last change, or what was
there. -/
theorem get_flush (files : Files) (changes : List Change) (k : EntryKey) :
    (flush files changes).get k =
      match lastOf k changes with
      | some change => change
      | none => files.get k := by
  have hlookup : (staged changes).entries.lookup k = lastOf k changes := get_staged changes k
  unfold flush
  rw [get_foldl_removeEntry (staged changes).nodup,
    get_foldl_publishEntry (staged changes).nodup, hlookup]
  cases lastOf k changes with
  | none => rfl
  | some change => cases change <;> rfl

theorem WellFormed.flush (h : files.WellFormed) {changes : List Change}
    (hrooted : forall change, change ∈ changes -> change.2 ≠ none ->
      exists rest, change.1.source = slash :: rest) :
    (flush files changes).WellFormed := by
  have hentries : forall change, change ∈ (staged changes).entries -> change.2 ≠ none ->
      exists rest, change.1.source = slash :: rest := by
    intro change hchange
    exact hrooted change (lastOf_mem (mem_staged.mp hchange))
  have hpublish : forall {entries : List Change} {files : Files}, files.WellFormed ->
      (forall change, change ∈ entries -> change.2 ≠ none ->
        exists rest, change.1.source = slash :: rest) ->
      (entries.foldl publishEntry files).WellFormed := by
    intro entries
    induction entries with
    | nil => exact fun hfiles _ => hfiles
    | cons change rest ih =>
        intro files hfiles hroot
        refine ih ?_ (fun c hc => hroot c (List.mem_cons_of_mem _ hc))
        have hself := hroot change List.mem_cons_self
        unfold publishEntry
        cases hchange : change.2 with
        | none => exact hfiles
        | some file => exact hfiles.set file (hself (by rw [hchange]; simp))
  have hremove : forall {entries : List Change} {files : Files}, files.WellFormed ->
      (entries.foldl removeEntry files).WellFormed := by
    intro entries
    induction entries with
    | nil => exact fun hfiles => hfiles
    | cons change rest ih =>
        intro files hfiles
        refine ih ?_
        unfold removeEntry
        cases change.2 with
        | none => exact hfiles.delete _
        | some file => exact hfiles
  exact hremove (hpublish h hentries)

/-- A source key is published after an epoch only if the epoch publishes it or
leaves it there. -/
theorem hasSource_flush {changes : List Change} {k : Key} :
    (flush files changes).hasSource k = true <->
      ((exists file, lastOf (EntryKey.ofSource k) changes = some (some file)) ∨
        (lastOf (EntryKey.ofSource k) changes = none ∧ files.hasSource k = true)) := by
  rw [hasSource_iff, get_flush, hasSource_iff]
  cases lastOf (EntryKey.ofSource k) changes with
  | none => simp
  | some change => cases change <;> simp

/-- A source no change names stays as it was. -/
theorem get_flush_frame {changes : List Change} {k : Key}
    (h : forall change, change ∈ changes -> change.1.source ≠ k) :
    (flush files changes).get (EntryKey.ofSource k) = files.get (EntryKey.ofSource k) := by
  have hnone : lastOf (EntryKey.ofSource k) changes = none := by
    rw [lastOf_eq_none]
    intro hmem
    rcases List.mem_map.mp hmem with ⟨change, hchange, heq⟩
    exact h change hchange (by rw [heq]; rfl)
  rw [get_flush, hnone]

theorem mem_unstaged {keys : List Key} {change : Change} :
    change ∈ unstaged place keys <->
      (change.2 = none ∧ exists key, key ∈ keys ∧
        (change.1 = EntryKey.ofSource key ∨ change.1 ∈ place.companions key)) := by
  unfold unstaged
  rw [List.mem_flatMap]
  constructor
  · intro h
    rcases h with ⟨key, hkey, hmem⟩
    rcases List.mem_map.mp hmem with ⟨k, hk, rfl⟩
    exact ⟨rfl, key, hkey, List.mem_cons.mp hk⟩
  · intro h
    rcases h with ⟨hnone, key, hkey, hcases⟩
    refine ⟨key, hkey, List.mem_map.mpr ⟨change.1, List.mem_cons.mpr hcases, ?_⟩⟩
    rw [← hnone]

theorem unstaged_source {keys : List Key} {change : Change}
    (h : change ∈ unstaged place keys) : change.1.source ∈ keys := by
  rcases (mem_unstaged.mp h).2 with ⟨key, hkey, hcases⟩
  rcases hcases with heq | hcompanion
  · rw [heq]
    exact hkey
  · rw [(Place.source_of_companion hcompanion).1]
    exact hkey

theorem lastOf_unstaged {keys : List Key} (k : EntryKey) :
    lastOf k (unstaged place keys) =
      if exists key, key ∈ keys ∧ (k = EntryKey.ofSource key ∨ k ∈ place.companions key)
      then some none else none := by
  by_cases hex : exists key, key ∈ keys ∧ (k = EntryKey.ofSource key ∨ k ∈ place.companions key)
  · rw [if_pos hex]
    refine lastOf_of_mem (mem_unstaged.mpr ⟨rfl, hex⟩) ?_
    intro v hv
    exact (mem_unstaged.mp hv).1
  · rw [if_neg hex, lastOf_eq_none]
    intro hmem
    rcases List.mem_map.mp hmem with ⟨change, hchange, rfl⟩
    exact hex (mem_unstaged.mp hchange).2

theorem lastOf_unstaged_source {keys : List Key} (k : Key) :
    lastOf (EntryKey.ofSource k) (unstaged place keys) = if k ∈ keys then some none else none := by
  rw [lastOf_unstaged]
  refine if_congr ?_ rfl rfl
  constructor
  · intro h
    rcases h with ⟨key, hkey, heq | hcompanion⟩
    · rw [ofSource_inj.mp heq]
      exact hkey
    · exact absurd hcompanion Place.ofSource_not_companion
  · intro h
    exact ⟨k, h, Or.inl rfl⟩

theorem bytecodeChanges_keys {env : Env} {mtimeMs : Nat} {codes : List Place.Code}
    {changes : List Change} (h : bytecodeChanges env mtimeMs codes = Except.ok changes) :
    changes.map Prod.fst = codes.map Place.Code.key := by
  induction codes generalizing changes with
  | nil =>
      rw [bytecodeChanges, Except.ok.injEq] at h
      rw [← h]
      rfl
  | cons code rest ih =>
      unfold bytecodeChanges at h
      simp only at h
      split_ifs at h with hscript
      rcases Place.bind_ok.mp h with ⟨more, hmore, heq⟩
      rw [← Except.ok.inj heq, List.map_cons, List.map_cons, ih hmore]

/-- What one stored source publishes: itself, and changes of its companions. -/
theorem storeShared_ok {input : PlaceFile} {env : Env} {changes : List Change}
    (h : storeShared place key input env = Except.ok changes) :
    exists companions, changes = (EntryKey.ofSource key, some input) :: companions ∧
      forall change, change ∈ companions ->
        change.1.source = key ∧ change.1.flavor ≠ none := by
  unfold storeShared at h
  split_ifs at h with hfits
  rcases Place.bind_ok.mp h with ⟨codes, hcodes, heq⟩
  refine ⟨_, (Except.ok.inj heq).symm, ?_⟩
  have hcode : forall change, change ∈ codes ->
      change.1.source = key ∧ change.1.flavor ≠ none := by
    intro change hchange
    have hmem : change.1 ∈ (place.bytecodeFor key input.data input.scriptOptions).map
        Place.Code.key := by
      rw [← bytecodeChanges_keys hcodes]
      exact List.mem_map_of_mem hchange
    rcases List.mem_map.mp hmem with ⟨code, hc, heq⟩
    rw [← heq, (MapStore.code_key hc).2.1]
    exact ⟨rfl, fun hnone => by cases hnone⟩
  have hcompressed : forall change, change ∈ compressedChanges place key input env ->
      change.1.source = key ∧ change.1.flavor ≠ none := by
    intro change hchange
    unfold compressedChanges at hchange
    split_ifs at hchange with hcompressible
    · rcases List.mem_map.mp hchange with ⟨codec, _, rfl⟩
      exact ⟨rfl, fun hnone => by cases hnone⟩
    · cases hchange
  intro change hchange
  have hbuilt : change ∈ codes ++ compressedChanges place key input env := by
    rcases List.mem_append.mp hchange with hmem | hmem
    · exact (List.mem_filter.mp hmem).1
    · exact (List.mem_filter.mp hmem).1
  rcases List.mem_append.mp hbuilt with hmem | hmem
  · exact hcode change hmem
  · exact hcompressed change hmem

/-- A committed publication changes its target and the removed keys only. -/
theorem publication_source {input : PlaceFile} {removed : List Key} {env : Env}
    {changes : List Change} (h : storeShared place key input env = Except.ok changes)
    {change : Change} (hchange : change ∈ unstaged place removed ++ changes) :
    change.1.source = key ∨ change.1.source ∈ removed := by
  rcases List.mem_append.mp hchange with hmem | hmem
  · exact Or.inr (unstaged_source hmem)
  · rcases storeShared_ok h with ⟨companions, rfl, hcompanions⟩
    rcases List.mem_cons.mp hmem with rfl | hmem
    · exact Or.inl rfl
    · exact Or.inl (hcompanions change hmem).1

theorem lastOf_publication_source {input : PlaceFile} {removed : List Key} {env : Env}
    {changes : List Change} (h : storeShared place key input env = Except.ok changes) (k : Key) :
    lastOf (EntryKey.ofSource k) (unstaged place removed ++ changes) =
      if k = key then some (some input) else if k ∈ removed then some none else none := by
  rcases storeShared_ok h with ⟨companions, rfl, hcompanions⟩
  have hnone : lastOf (EntryKey.ofSource k) companions = none := by
    rw [lastOf_eq_none]
    intro hmem
    rcases List.mem_map.mp hmem with ⟨change, hchange, heq⟩
    have hflavor := (hcompanions change hchange).2
    rw [heq] at hflavor
    exact hflavor rfl
  rw [lastOf_append, lastOf_unstaged_source, lastOf, hnone]
  by_cases hk : k = key
  · simp [hk]
  · have hne : ¬ EntryKey.ofSource key = EntryKey.ofSource k :=
      fun heq => hk (ofSource_inj.mp heq).symm
    simp only [if_neg hk, if_neg hne, Option.none_or]

end SabStore

/-!
# Moving a subtree
-/

namespace Place

variable {place : Place} {files : Files} {source target : Key}

theorem rekey_append (rest : Key) :
    rekey source target (source ++ slash :: rest) = target ++ slash :: rest := by
  unfold rekey
  rw [List.drop_left]

theorem collectMoves_ok {fail : Fail} {keys : List Key} {moves : List (EntryKey × EntryKey)}
    (h : place.collectMoves files source target fail keys = Except.ok moves) :
    moves = keys.flatMap (place.movesOf files source target) ∧
      forall key, key ∈ keys -> place.immovable files key = none := by
  induction keys generalizing moves with
  | nil =>
      rw [collectMoves, Except.ok.injEq] at h
      exact ⟨h.symm, by simp⟩
  | cons key rest ih =>
      unfold collectMoves at h
      cases himmovable : place.immovable files key with
      | some reason =>
          rw [himmovable] at h
          cases h
      | none =>
          rw [himmovable] at h
          rcases Place.bind_ok.mp h with ⟨more, hrest, heq⟩
          rcases ih hrest with ⟨hmore, hnone⟩
          refine ⟨by rw [← Except.ok.inj heq, hmore, List.flatMap_cons], ?_⟩
          intro k hk
          rcases List.mem_cons.mp hk with rfl | hk
          · exact himmovable
          · exact hnone k hk

/-- A subtree that may move: where it goes nothing is, above or below. -/
structure Movable (place : Place) (files : Files) (source target : Key)
    (moves : List (EntryKey × EntryKey)) : Prop where
  outside : ¬ Above slash source target
  free : files.hasSource target = false
  above : forall file, files.hasSource file = true -> ¬ Above slash file target
  below : forall file, files.hasSource file = true -> ¬ Above slash target file
  mem : forall move, move ∈ moves <-> exists key, files.hasSource key = true ∧
    Above slash source key ∧ move ∈ place.movesOf files source target key
  movable : forall key, files.hasSource key = true -> Above slash source key ->
    place.immovable files key = none

theorem subtreeMoves_ok (h : files.WellFormed) (hsource : Plain source) (htarget : Plain target)
    {creating : List Key} {moves : List (EntryKey × EntryKey)}
    (hmoves : place.subtreeMoves files source target creating = Except.ok moves) :
    (target = source ∧ moves = []) ∨ Movable place files source target moves := by
  unfold subtreeMoves at hmoves
  dsimp only at hmoves
  split_ifs at hmoves with hempty hsame hinside hfile hdirectory
  · exact Or.inl ⟨hsame, (Except.ok.inj hmoves).symm⟩
  · rcases bind_ok.mp hmoves with ⟨_, hcheck, hcollect⟩
    have hclear := (checkHierarchy_ok h.indexed htarget).mp hcheck
    have hunder := fun key => mem_keysUnder h.indexed hsource key
    rcases collectMoves_ok hcollect with ⟨heq, hmovable⟩
    refine Or.inr ⟨?_, ?_, ?_, ?_, ?_, ?_⟩
    · intro habove
      exact hinside (isPrefixOf_iff.mpr habove)
    · exact Bool.eq_false_iff.mpr hfile
    · intro file hhas
      refine hclear.above file (Or.inl hhas) ?_
      rcases h.rooted file hhas with ⟨rest, hrest⟩
      rw [hrest]
      exact List.cons_ne_nil _ _
    · intro file hhas habove
      exact hdirectory ((isDirectory_iff h.indexed htarget).mpr ⟨file, hhas, habove⟩)
    · intro move
      rw [heq, List.mem_flatMap]
      constructor
      · intro hex
        rcases hex with ⟨key, hkey, hmem⟩
        exact ⟨key, ((hunder key).mp hkey).1, ((hunder key).mp hkey).2, hmem⟩
      · intro hex
        rcases hex with ⟨key, hhas, habove, hmem⟩
        exact ⟨key, (hunder key).mpr ⟨hhas, habove⟩, hmem⟩
    · intro key hhas habove
      exact hmovable key ((hunder key).mpr ⟨hhas, habove⟩)

/-- A move keeps the flavor and re-keys the source. -/
theorem mem_movesOf {key : Key} {move : EntryKey × EntryKey} :
    move ∈ place.movesOf files source target key <->
      (move.1.source = key ∧ move.2 = ⟨rekey source target key, move.1.flavor⟩ ∧
        (move.1.flavor = none ∨
          (move.1 ∈ place.companions key ∧ files.has move.1 = true))) := by
  unfold movesOf
  rw [List.mem_cons, List.mem_map]
  constructor
  · intro h
    rcases h with rfl | ⟨companion, hcompanion, rfl⟩
    · exact ⟨rfl, rfl, Or.inl rfl⟩
    · rw [List.mem_filter] at hcompanion
      exact ⟨(source_of_companion hcompanion.1).1, rfl, Or.inr hcompanion⟩
  · intro h
    rcases move with ⟨⟨ms, mf⟩, target'⟩
    rcases h with ⟨rfl, htarget, hcases⟩
    have htarget' : target' = ⟨rekey source target ms, mf⟩ := htarget
    rw [htarget']
    rcases hcases with hnone | hcompanion
    · have hmf : mf = none := hnone
      rw [hmf]
      exact Or.inl rfl
    · exact Or.inr ⟨⟨ms, mf⟩, List.mem_filter.mpr hcompanion, rfl⟩

end Place

end SharedMemoryFs
