import Mathlib

/-!
# Insertion-ordered finite maps

A finite map that remembers the order in which its keys were first inserted:
overwriting a key keeps its position and deleting it forgets the position.
The keys of the entry list are distinct by construction, so lookups need no
well-formedness hypothesis.

{lit}`total` adds up a measure of the values in a commutative monoid.  Its
update rules are what resource accounting over a map needs: replacing a value
exchanges exactly one summand.
-/

namespace SharedMemoryFs
namespace Foundation

structure OrderedMap (alpha : Type u) (beta : Type v) where
  entries : List (alpha × beta)
  nodup : (entries.map Prod.fst).Nodup

namespace OrderedMap

variable {alpha : Type u} {beta : Type v} {gamma : Type w}

/-!
# Entry lists

The operations on bare entry lists.  Distinctness of the keys is proved once
for each operation and then carried by the structure.
-/

def setEntries [DecidableEq alpha] (key : alpha) (value : beta) :
    List (alpha × beta) -> List (alpha × beta)
  | [] => [(key, value)]
  | entry :: rest =>
      if entry.1 = key then (key, value) :: rest
      else entry :: setEntries key value rest

theorem mem_keys_setEntries [DecidableEq alpha] {key k : alpha} {value : beta}
    {entries : List (alpha × beta)} :
    k ∈ (setEntries key value entries).map Prod.fst <->
      k = key ∨ k ∈ entries.map Prod.fst := by
  induction entries with
  | nil => simp [setEntries]
  | cons entry rest ih =>
      unfold setEntries
      by_cases h : entry.1 = key
      · rw [if_pos h]
        simp only [List.map_cons, List.mem_cons, h]
        rw [← or_assoc, or_self_iff]
      · rw [if_neg h]
        simp only [List.map_cons, List.mem_cons, ih]
        exact or_left_comm

theorem nodup_setEntries [DecidableEq alpha] (key : alpha) (value : beta)
    {entries : List (alpha × beta)} (h : (entries.map Prod.fst).Nodup) :
    ((setEntries key value entries).map Prod.fst).Nodup := by
  induction entries with
  | nil => simp [setEntries]
  | cons entry rest ih =>
      have hcons : entry.1 ∉ rest.map Prod.fst ∧ (rest.map Prod.fst).Nodup :=
        List.nodup_cons.mp h
      unfold setEntries
      by_cases hkey : entry.1 = key
      · rw [if_pos hkey]
        exact List.nodup_cons.mpr ⟨hkey ▸ hcons.1, hcons.2⟩
      · rw [if_neg hkey]
        refine List.nodup_cons.mpr ⟨?_, ih hcons.2⟩
        intro hmem
        rcases mem_keys_setEntries.mp hmem with heq | hold
        · exact hkey heq
        · exact hcons.1 hold

theorem lookup_cons_eq_ite [DecidableEq alpha] (entryKey k : alpha)
    (entryValue : beta) (rest : List (alpha × beta)) :
    ((entryKey, entryValue) :: rest).lookup k =
      if k = entryKey then some entryValue else rest.lookup k := by
  by_cases hk : k = entryKey
  · rw [if_pos hk, hk, List.lookup_cons_self]
  · have hbeq : (k == entryKey) = false := beq_eq_false_iff_ne.mpr hk
    rw [if_neg hk, List.lookup_cons, hbeq]

theorem lookup_setEntries [DecidableEq alpha] (key k : alpha) (value : beta)
    (entries : List (alpha × beta)) :
    (setEntries key value entries).lookup k =
      if k = key then some value else entries.lookup k := by
  induction entries with
  | nil =>
      simp only [setEntries, lookup_cons_eq_ite, List.lookup_nil]
  | cons entry rest ih =>
      rcases entry with ⟨entryKey, entryValue⟩
      unfold setEntries
      by_cases hkey : entryKey = key
      · rw [if_pos hkey, lookup_cons_eq_ite, lookup_cons_eq_ite, hkey]
        by_cases hk : k = key
        · rw [if_pos hk, if_pos hk]
        · rw [if_neg hk, if_neg hk, if_neg hk]
      · rw [if_neg hkey, lookup_cons_eq_ite, lookup_cons_eq_ite, ih]
        by_cases hk : k = entryKey
        · have hne : k ≠ key := fun h => hkey (hk.symm.trans h)
          rw [if_pos hk, if_neg hne, if_pos hk]
        · rw [if_neg hk, if_neg hk]

theorem lookup_filter_ne [DecidableEq alpha] (key k : alpha)
    (entries : List (alpha × beta)) :
    (entries.filter (fun entry => decide (entry.1 ≠ key))).lookup k =
      if k = key then none else entries.lookup k := by
  induction entries with
  | nil => simp
  | cons entry rest ih =>
      rcases entry with ⟨entryKey, entryValue⟩
      by_cases hkey : entryKey = key
      · rw [List.filter_cons_of_neg (by simp [hkey]), ih, lookup_cons_eq_ite, hkey]
        by_cases hk : k = key
        · rw [if_pos hk, if_pos hk]
        · rw [if_neg hk, if_neg hk, if_neg hk]
      · rw [List.filter_cons_of_pos (by simpa using hkey), lookup_cons_eq_ite,
          lookup_cons_eq_ite, ih]
        by_cases hk : k = entryKey
        · have hne : k ≠ key := fun h => hkey (hk.symm.trans h)
          rw [if_pos hk, if_neg hne, if_pos hk]
        · rw [if_neg hk, if_neg hk]

theorem mem_iff_lookup [DecidableEq alpha] {key : alpha} {value : beta}
    {entries : List (alpha × beta)} (h : (entries.map Prod.fst).Nodup) :
    (key, value) ∈ entries <-> entries.lookup key = some value := by
  induction entries with
  | nil => simp
  | cons entry rest ih =>
      rcases entry with ⟨entryKey, entryValue⟩
      have hcons : entryKey ∉ rest.map Prod.fst ∧ (rest.map Prod.fst).Nodup :=
        List.nodup_cons.mp h
      by_cases hk : key = entryKey
      · subst hk
        constructor
        · intro hmem
          rcases List.mem_cons.mp hmem with heq | hrest
          · simp [(Prod.mk.inj heq).2]
          · exact absurd (List.mem_map_of_mem hrest) hcons.1
        · intro hlookup
          simp at hlookup
          simp [hlookup]
      · have hne : (key, value) ≠ (entryKey, entryValue) :=
          fun heq => hk (Prod.mk.inj heq).1
        rw [lookup_cons_eq_ite, if_neg hk, List.mem_cons, ih hcons.2]
        exact or_iff_right hne

/-!
# Operations
-/

def empty : OrderedMap alpha beta := ⟨[], List.nodup_nil⟩

instance : Inhabited (OrderedMap alpha beta) := ⟨empty⟩

def keys (m : OrderedMap alpha beta) : List alpha := m.entries.map Prod.fst

def values (m : OrderedMap alpha beta) : List beta := m.entries.map Prod.snd

def size (m : OrderedMap alpha beta) : Nat := m.entries.length

section Decidable

variable [DecidableEq alpha]

def get (m : OrderedMap alpha beta) (key : alpha) : Option beta :=
  m.entries.lookup key

def has (m : OrderedMap alpha beta) (key : alpha) : Bool := (m.get key).isSome

def set (m : OrderedMap alpha beta) (key : alpha) (value : beta) :
    OrderedMap alpha beta :=
  ⟨setEntries key value m.entries, nodup_setEntries key value m.nodup⟩

def delete (m : OrderedMap alpha beta) (key : alpha) : OrderedMap alpha beta :=
  ⟨m.entries.filter (fun entry => decide (entry.1 ≠ key)),
    m.nodup.sublist (List.filter_sublist.map Prod.fst)⟩

end Decidable

def mapValues (f : alpha -> beta -> gamma) (m : OrderedMap alpha beta) :
    OrderedMap alpha gamma :=
  ⟨m.entries.map (fun entry => (entry.1, f entry.1 entry.2)), by
    simpa [List.map_map, Function.comp_def] using m.nodup⟩

def filterMapEntry (f : alpha -> beta -> Option gamma) (entry : alpha × beta) :
    Option (alpha × gamma) :=
  (f entry.1 entry.2).map (fun value => (entry.1, value))

theorem sublist_filterMapEntry (f : alpha -> beta -> Option gamma)
    (entries : List (alpha × beta)) :
    ((entries.filterMap (filterMapEntry f)).map Prod.fst).Sublist
      (entries.map Prod.fst) := by
  induction entries with
  | nil => exact List.Sublist.slnil
  | cons entry rest ih =>
      cases hf : f entry.1 entry.2 with
      | none =>
          rw [List.filterMap_cons_none (by simp [filterMapEntry, hf])]
          exact List.Sublist.cons _ ih
      | some value =>
          have hentry : filterMapEntry f entry = some (entry.1, value) := by
            simp [filterMapEntry, hf]
          rw [List.filterMap_cons_some hentry]
          exact List.Sublist.cons_cons _ ih

/-- Replaces every value, or drops it where {lit}`f` has none. -/
def filterMapValues (f : alpha -> beta -> Option gamma) (m : OrderedMap alpha beta) :
    OrderedMap alpha gamma :=
  ⟨m.entries.filterMap (filterMapEntry f),
    m.nodup.sublist (sublist_filterMapEntry f m.entries)⟩

/-!
# Lookup rules
-/

section Lookup

variable [DecidableEq alpha]

@[simp] theorem get_empty (key : alpha) :
    (empty : OrderedMap alpha beta).get key = none := rfl

theorem get_set (m : OrderedMap alpha beta) (key k : alpha) (value : beta) :
    (m.set key value).get k = if k = key then some value else m.get k :=
  lookup_setEntries key k value m.entries

@[simp] theorem get_set_self (m : OrderedMap alpha beta) (key : alpha)
    (value : beta) : (m.set key value).get key = some value := by
  rw [get_set, if_pos rfl]

theorem get_set_ne (m : OrderedMap alpha beta) {key k : alpha} (value : beta)
    (h : k ≠ key) : (m.set key value).get k = m.get k := by
  rw [get_set, if_neg h]

theorem get_delete (m : OrderedMap alpha beta) (key k : alpha) :
    (m.delete key).get k = if k = key then none else m.get k :=
  lookup_filter_ne key k m.entries

@[simp] theorem get_delete_self (m : OrderedMap alpha beta) (key : alpha) :
    (m.delete key).get key = none := by
  rw [get_delete, if_pos rfl]

theorem get_delete_ne (m : OrderedMap alpha beta) {key k : alpha}
    (h : k ≠ key) : (m.delete key).get k = m.get k := by
  rw [get_delete, if_neg h]

theorem get_foldl_delete (m : OrderedMap alpha beta) (keys : List alpha)
    (k : alpha) :
    (keys.foldl delete m).get k = if k ∈ keys then none else m.get k := by
  induction keys generalizing m with
  | nil => simp
  | cons key rest ih =>
      rw [List.foldl_cons, ih, get_delete]
      by_cases hrest : k ∈ rest
      · simp [hrest]
      · simp [hrest]

@[simp] theorem get_mapValues (f : alpha -> beta -> gamma)
    (m : OrderedMap alpha beta) (key : alpha) :
    (m.mapValues f).get key = (m.get key).map (f key) := by
  rcases m with ⟨entries, hnodup⟩
  show (entries.map (fun entry => (entry.1, f entry.1 entry.2))).lookup key =
    (entries.lookup key).map (f key)
  clear hnodup
  induction entries with
  | nil => rfl
  | cons entry rest ih =>
      rcases entry with ⟨entryKey, entryValue⟩
      rw [List.map_cons, lookup_cons_eq_ite, lookup_cons_eq_ite, ih]
      by_cases hk : key = entryKey
      · rw [if_pos hk, if_pos hk, hk]
        rfl
      · rw [if_neg hk, if_neg hk]

@[simp] theorem get_filterMapValues (f : alpha -> beta -> Option gamma)
    (m : OrderedMap alpha beta) (key : alpha) :
    (m.filterMapValues f).get key = (m.get key).bind (f key) := by
  rcases m with ⟨entries, hnodup⟩
  show (entries.filterMap (filterMapEntry f)).lookup key =
    (entries.lookup key).bind (f key)
  induction entries with
  | nil => rfl
  | cons entry rest ih =>
      rcases entry with ⟨entryKey, entryValue⟩
      have hcons := List.nodup_cons.mp hnodup
      rw [lookup_cons_eq_ite]
      by_cases hk : key = entryKey
      · rw [if_pos hk, Option.bind_some, hk]
        cases hf : f entryKey entryValue with
        | none =>
            rw [List.filterMap_cons_none (by simp [filterMapEntry, hf])]
            -- The dropped key occurs nowhere else.
            refine List.lookup_eq_none_iff.mpr ?_
            intro x hx
            have hmem := (sublist_filterMapEntry f rest).subset (List.mem_map_of_mem hx)
            have hne : entryKey ≠ x.1 := fun heq => hcons.1 (heq ▸ hmem)
            simpa using hne
        | some value =>
            have hentry : filterMapEntry f (entryKey, entryValue) =
                some (entryKey, value) := by
              simp [filterMapEntry, hf]
            rw [List.filterMap_cons_some hentry, lookup_cons_eq_ite, if_pos rfl]
      · rw [if_neg hk, ← ih hcons.2]
        cases hf : f entryKey entryValue with
        | none => rw [List.filterMap_cons_none (by simp [filterMapEntry, hf])]
        | some value =>
            have hentry : filterMapEntry f (entryKey, entryValue) =
                some (entryKey, value) := by
              simp [filterMapEntry, hf]
            rw [List.filterMap_cons_some hentry, lookup_cons_eq_ite, if_neg hk]

theorem mem_entries_iff {m : OrderedMap alpha beta} {key : alpha}
    {value : beta} : (key, value) ∈ m.entries <-> m.get key = some value :=
  mem_iff_lookup m.nodup

theorem mem_keys_iff {m : OrderedMap alpha beta} {key : alpha} :
    key ∈ m.keys <-> exists value, m.get key = some value := by
  constructor
  · intro h
    rcases List.mem_map.mp h with ⟨entry, hmem, hkey⟩
    exact ⟨entry.2, mem_entries_iff.mp (by rw [← hkey]; exact hmem)⟩
  · intro h
    rcases h with ⟨value, hvalue⟩
    exact List.mem_map.mpr ⟨(key, value), mem_entries_iff.mpr hvalue, rfl⟩

theorem mem_values_iff {m : OrderedMap alpha beta} {value : beta} :
    value ∈ m.values <-> exists key, m.get key = some value := by
  constructor
  · intro h
    rcases List.mem_map.mp h with ⟨entry, hmem, hvalue⟩
    exact ⟨entry.1, mem_entries_iff.mp (by rw [← hvalue]; exact hmem)⟩
  · intro h
    rcases h with ⟨key, hkey⟩
    exact List.mem_map.mpr ⟨(key, value), mem_entries_iff.mpr hkey, rfl⟩

@[simp] theorem has_iff {m : OrderedMap alpha beta} {key : alpha} :
    m.has key = true <-> exists value, m.get key = some value := by
  unfold has
  exact Option.isSome_iff_exists

theorem get_eq_none_of_size_zero {m : OrderedMap alpha beta}
    (h : m.size = 0) (key : alpha) : m.get key = none := by
  have hnil : m.entries = [] := List.length_eq_zero_iff.mp h
  unfold get
  rw [hnil]
  rfl

theorem size_eq_zero_iff {m : OrderedMap alpha beta} :
    m.size = 0 <-> forall key, m.get key = none := by
  constructor
  · intro h key
    exact get_eq_none_of_size_zero h key
  · intro h
    refine List.length_eq_zero_iff.mpr (List.eq_nil_iff_forall_not_mem.mpr ?_)
    intro entry hmem
    have hsome : m.get entry.1 = some entry.2 := mem_entries_iff.mp hmem
    rw [h entry.1] at hsome
    cases hsome

/-- Values that no two keys share are listed once. -/
theorem nodup_values {m : OrderedMap alpha beta}
    (h : forall key key' value, m.get key = some value -> m.get key' = some value ->
      key = key') : m.values.Nodup := by
  apply List.Nodup.map_on
  · intro entry hentry other hother heq
    have hget : m.get entry.1 = some entry.2 := mem_entries_iff.mp hentry
    have hget' : m.get other.1 = some entry.2 := by
      rw [heq]
      exact mem_entries_iff.mp hother
    exact Prod.ext (h entry.1 other.1 entry.2 hget hget') heq
  · exact List.Nodup.of_map Prod.fst m.nodup

theorem size_set_of_size_zero {m : OrderedMap alpha beta} (h : m.size = 0) (key : alpha)
    (value : beta) : (m.set key value).size = 1 := by
  have hnil : m.entries = [] := List.length_eq_zero_iff.mp h
  unfold size set
  dsimp only
  rw [hnil]
  rfl

/-- Setting a key that is there keeps the keys and their order. -/
theorem keys_set {m : OrderedMap alpha beta} {key : alpha} {old : beta}
    (h : m.get key = some old) (value : beta) : (m.set key value).keys = m.keys := by
  have hentries : forall entries : List (alpha × beta), entries.lookup key = some old ->
      (setEntries key value entries).map Prod.fst = entries.map Prod.fst := by
    intro entries
    induction entries with
    | nil =>
        intro hnone
        cases hnone
    | cons entry rest ih =>
        intro hlookup
        unfold setEntries
        by_cases hkey : entry.1 = key
        · rw [if_pos hkey, List.map_cons, List.map_cons, hkey]
        · rw [if_neg hkey, List.map_cons, List.map_cons, ih]
          rw [lookup_cons_eq_ite, if_neg (fun heq => hkey heq.symm)] at hlookup
          exact hlookup
  exact hentries m.entries h

/-- Maps with the same keys in the same order and the same values are equal. -/
theorem ext_get {m m' : OrderedMap alpha beta} (hkeys : m.keys = m'.keys)
    (hget : forall key, m.get key = m'.get key) : m = m' := by
  have hlength : m.entries.length = m'.entries.length := by
    have hmap := congrArg List.length hkeys
    unfold keys at hmap
    rw [List.length_map, List.length_map] at hmap
    exact hmap
  have hentries : m.entries = m'.entries := by
    apply List.ext_getElem hlength
    intro i hi hi'
    have hfst : m.entries[i].1 = m'.entries[i].1 := by
      have hat : m.keys[i]? = m'.keys[i]? := by rw [hkeys]
      unfold keys at hat
      rw [List.getElem?_map, List.getElem?_map, List.getElem?_eq_getElem hi,
        List.getElem?_eq_getElem hi'] at hat
      exact Option.some.inj hat
    have hvalue : m.get m.entries[i].1 = some m.entries[i].2 :=
      mem_entries_iff.mp (List.getElem_mem hi)
    have hvalue' : m'.get m'.entries[i].1 = some m'.entries[i].2 :=
      mem_entries_iff.mp (List.getElem_mem hi')
    rw [hget, hfst, hvalue'] at hvalue
    exact Prod.ext hfst (Option.some.inj hvalue).symm
  cases m
  cases m'
  simp only at hentries
  subst hentries
  rfl

/-- Setting a key to the value it has changes nothing. -/
theorem set_get {m : OrderedMap alpha beta} {key : alpha} {value : beta}
    (h : m.get key = some value) : m.set key value = m := by
  apply ext_get (keys_set h value)
  intro k
  rw [get_set]
  by_cases hk : k = key
  · rw [if_pos hk, hk, h]
  · rw [if_neg hk]

end Lookup

/-!
# Totals

The sum over a map's values of a measure with values in a commutative monoid.
-/

section Total

variable {M : Type w} [AddCommMonoid M]

def total (m : OrderedMap alpha beta) (f : beta -> M) : M :=
  (m.entries.map (fun entry => f entry.2)).sum

@[simp] theorem total_empty (f : beta -> M) :
    (empty : OrderedMap alpha beta).total f = 0 := rfl

theorem total_mapValues (g : alpha -> beta -> gamma) (m : OrderedMap alpha beta)
    (f : gamma -> M) (h : beta -> M)
    (hfg : forall key value, f (g key value) = h value) :
    (m.mapValues g).total f = m.total h := by
  simp [total, mapValues, List.map_map, Function.comp_def, hfg]

variable [DecidableEq alpha]

theorem sum_setEntries (key : alpha) (value : beta) (f : beta -> M)
    (entries : List (alpha × beta)) :
    ((setEntries key value entries).map (fun entry => f entry.2)).sum +
        (entries.lookup key).elim 0 f =
      (entries.map (fun entry => f entry.2)).sum + f value := by
  induction entries with
  | nil => simp [setEntries]
  | cons entry rest ih =>
      rcases entry with ⟨entryKey, entryValue⟩
      unfold setEntries
      by_cases hkey : entryKey = key
      · rw [if_pos hkey]
        simp [hkey]
        abel
      · rw [if_neg hkey]
        have hne : key ≠ entryKey := fun h => hkey h.symm
        simp only [List.map_cons, List.sum_cons, List.lookup_cons]
        have hbeq : (key == entryKey) = false := by simpa using hne
        rw [hbeq]
        calc f entryValue +
                ((setEntries key value rest).map fun entry => f entry.2).sum +
                (rest.lookup key).elim 0 f
            = f entryValue +
                (((setEntries key value rest).map fun entry => f entry.2).sum +
                  (rest.lookup key).elim 0 f) := by abel
          _ = f entryValue +
                ((rest.map fun entry => f entry.2).sum + f value) := by rw [ih]
          _ = _ := by abel

/-- Setting a key exchanges the old summand for the new one. -/
theorem total_set (m : OrderedMap alpha beta) (key : alpha) (value : beta)
    (f : beta -> M) :
    (m.set key value).total f + (m.get key).elim 0 f = m.total f + f value :=
  sum_setEntries key value f m.entries

theorem total_set_new {m : OrderedMap alpha beta} {key : alpha}
    (h : m.get key = none) (value : beta) (f : beta -> M) :
    (m.set key value).total f = m.total f + f value := by
  have hset := total_set m key value f
  rw [h] at hset
  simpa using hset

theorem sum_filter_ne (key : alpha) (f : beta -> M)
    {entries : List (alpha × beta)} (h : (entries.map Prod.fst).Nodup) :
    ((entries.filter (fun entry => decide (entry.1 ≠ key))).map
        (fun entry => f entry.2)).sum + (entries.lookup key).elim 0 f =
      (entries.map (fun entry => f entry.2)).sum := by
  induction entries with
  | nil => simp
  | cons entry rest ih =>
      rcases entry with ⟨entryKey, entryValue⟩
      have hcons : entryKey ∉ rest.map Prod.fst ∧ (rest.map Prod.fst).Nodup :=
        List.nodup_cons.mp h
      by_cases hkey : entryKey = key
      · subst hkey
        have hrest : rest.filter (fun entry => decide (entry.1 ≠ entryKey)) =
            rest := by
          refine List.filter_eq_self.mpr ?_
          intro entry hmem
          simp only [decide_eq_true_eq]
          intro heq
          exact hcons.1 (heq ▸ List.mem_map_of_mem hmem)
        have hhead : ((entryKey, entryValue) :: rest).filter
            (fun entry => decide (entry.1 ≠ entryKey)) = rest := by
          rw [List.filter_cons_of_neg (by simp), hrest]
        rw [hhead]
        simp
        abel
      · have hne : key ≠ entryKey := fun heq => hkey heq.symm
        have hbeq : (key == entryKey) = false := by simpa using hne
        rw [List.filter_cons_of_pos (by simpa using hkey)]
        simp only [List.map_cons, List.sum_cons, List.lookup_cons, hbeq]
        rw [add_assoc, ih hcons.2]

/-- Deleting a key removes exactly its own summand. -/
theorem total_delete (m : OrderedMap alpha beta) (key : alpha)
    (f : beta -> M) :
    (m.delete key).total f + (m.get key).elim 0 f = m.total f :=
  sum_filter_ne key f m.nodup

end Total

theorem mem_total_iff [DecidableEq alpha] {m : OrderedMap alpha beta}
    {f : beta -> Multiset gamma} {x : gamma} :
    x ∈ m.total f <-> exists key value, m.get key = some value ∧ x ∈ f value := by
  have hsum : x ∈ m.total f <-> exists entry, entry ∈ m.entries ∧ x ∈ f entry.2 := by
    unfold total
    generalize m.entries = entries
    induction entries with
    | nil => simp
    | cons entry rest ih =>
        simp only [List.map_cons, List.sum_cons, Multiset.mem_add, ih,
          List.mem_cons, exists_eq_or_imp]
  rw [hsum]
  constructor
  · intro h
    rcases h with ⟨entry, hmem, hx⟩
    exact ⟨entry.1, entry.2, mem_entries_iff.mp hmem, hx⟩
  · intro h
    rcases h with ⟨key, value, hget, hx⟩
    exact ⟨(key, value), mem_entries_iff.mpr hget, hx⟩

end OrderedMap
end Foundation
end SharedMemoryFs
