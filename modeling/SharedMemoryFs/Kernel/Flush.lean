import SharedMemoryFs.Kernel.VfsKernel

/-!
# What a flush does to the index

The commit loop moves the staged entries into the index and lists every version
they replace.  {lit}`delta_commit` shows that the update built from its lists
leads from the old index to the new one.
-/

namespace SharedMemoryFs

open Foundation

/-- The outcome of the commit loop over changes with distinct slots. -/
structure CommitSpec (c : FilesystemCache) (changes : List (Slot × Option Entry))
    (c' : FilesystemCache) (m : Commit) : Prop where
  changed : forall {slot change}, (slot, change) ∈ changes -> c'.index.get slot = change
  frame : forall {slot}, slot ∉ changes.map Prod.fst ->
    c'.index.get slot = c.index.get slot
  entries : forall {slot entry}, (slot, entry) ∈ m.entries <->
    (slot, some entry) ∈ changes
  nodup : (m.entries.map Prod.fst).Sublist (changes.map Prod.fst)
  removals : forall {slot}, slot ∈ m.removals <->
    (slot, none) ∈ changes ∧ exists entry, c.index.get slot = some entry
  olds : forall {slot entry}, (slot, entry) ∈ m.olds <->
    slot ∈ changes.map Prod.fst ∧ c.index.get slot = some entry ∧
      entry.extent?.isSome = true
  nodupOlds : (m.olds.map Prod.fst).Sublist (changes.map Prod.fst)
  extents : c'.index.total Entry.extents + listExtents (m.olds.map Prod.snd) =
    c.index.total Entry.extents + stagedExtents changes
  owned : forall {live}, c.registry.Owned live -> c'.registry.Owned live
  mem : c'.mem = c.mem

theorem mem_retiring {slot s : Slot} {old : Option Entry} {entry : Entry} :
    (s, entry) ∈ retiring slot old <->
      s = slot ∧ old = some entry ∧ entry.extent?.isSome = true := by
  unfold retiring
  cases old with
  | none => simp
  | some found =>
      by_cases hsome : found.extent?.isSome = true
      · simp only [if_pos hsome, List.mem_singleton, Prod.mk.injEq, Option.some.injEq]
        constructor
        · rintro ⟨hs, hentry⟩
          exact ⟨hs, hentry.symm, hentry ▸ hsome⟩
        · rintro ⟨hs, hentry, _⟩
          exact ⟨hs, hentry.symm⟩
      · simp only [if_neg hsome, List.not_mem_nil, Option.some.injEq, false_iff]
        rintro ⟨_, hentry, hext⟩
        rw [← hentry] at hext
        exact hsome hext

theorem retiring_extents (slot : Slot) (old : Option Entry) :
    listExtents ((retiring slot old).map Prod.snd) = changeExtents old := by
  unfold retiring
  cases old with
  | none => rfl
  | some found =>
      by_cases hsome : found.extent?.isSome = true
      · simp [hsome, listExtents, changeExtents]
      · have hnone : found.extent? = none := by simpa using hsome
        simp [hnone, listExtents, changeExtents, Entry.extents]

theorem retiring_slots (slot : Slot) (old : Option Entry) :
    ((retiring slot old).map Prod.fst).Sublist [slot] := by
  unfold retiring
  cases old with
  | none => exact List.nil_sublist _
  | some found =>
      by_cases hsome : found.extent?.isSome = true
      · simp [hsome]
      · simp [hsome]

/-- One change at the front of the loop, by its effect on the cache. -/
theorem commitSpec_cons {c c' : FilesystemCache} (c₁ : FilesystemCache) {slot : Slot}
    {change : Option Entry} {rest : List (Slot × Option Entry)} {m m' : Commit}
    (hslot : slot ∉ rest.map Prod.fst)
    (hget : forall s, c₁.index.get s = if s = slot then change else c.index.get s)
    (htotal : c₁.index.total Entry.extents + changeExtents (c.index.get slot) =
      c.index.total Entry.extents + changeExtents change)
    (howned : forall {live}, c.registry.Owned live -> c₁.registry.Owned live)
    (hmem : c₁.mem = c.mem)
    (hspec : CommitSpec c₁ rest c' m)
    (hentries : m'.entries = (change.elim [] (fun e => [(slot, e)])) ++ m.entries)
    (hremovals : m'.removals =
      (if change = none ∧ (c.index.get slot).isSome then [slot] else []) ++ m.removals)
    (holds : m'.olds = retiring slot (c.index.get slot) ++ m.olds) :
    CommitSpec c ((slot, change) :: rest) c' m' := by
  have hrest : forall {s}, s ∈ rest.map Prod.fst -> c₁.index.get s = c.index.get s := by
    intro s hs
    have hne : s ≠ slot := fun heq => hslot (heq ▸ hs)
    rw [hget, if_neg hne]
  refine
    { changed := ?_
      frame := ?_
      entries := ?_
      nodup := ?_
      removals := ?_
      olds := ?_
      nodupOlds := ?_
      extents := ?_
      owned := fun h => hspec.owned (howned h)
      mem := hspec.mem.trans hmem }
  · intro s ch hin
    rcases List.mem_cons.mp hin with heq | hin
    · rcases Prod.mk.inj heq with ⟨hs, hch⟩
      rw [hs, hch, hspec.frame hslot, hget, if_pos rfl]
    · exact hspec.changed hin
  · intro s hs
    have hout : s ≠ slot ∧ s ∉ rest.map Prod.fst := by
      simpa only [List.map_cons, List.mem_cons, not_or] using hs
    rw [hspec.frame hout.2, hget, if_neg hout.1]
  · intro s e
    rw [hentries, List.mem_append, hspec.entries, List.mem_cons, Prod.mk.injEq]
    cases change with
    | none => simp
    | some entry => simp [eq_comm]
  · rw [hentries, List.map_append, List.map_cons]
    cases change with
    | none => exact (List.nil_sublist [slot]).append hspec.nodup
    | some entry => exact (List.Sublist.refl [slot]).append hspec.nodup
  · intro s
    rw [hremovals, List.mem_append, hspec.removals, List.mem_cons, Prod.mk.injEq]
    have hhead : s ∈ (if change = none ∧ (c.index.get slot).isSome then [slot] else []) <->
        s = slot ∧ change = none ∧ exists entry, c.index.get slot = some entry := by
      rw [← Option.isSome_iff_exists]
      split_ifs with hcond
      · simp [hcond.1, hcond.2]
      · constructor
        · intro hnil
          cases hnil
        · rintro ⟨_, hcond'⟩
          exact absurd hcond' hcond
    rw [hhead]
    constructor
    · rintro (⟨hs, hchange, hentry⟩ | ⟨hin, hentry⟩)
      · exact ⟨Or.inl ⟨hs, hchange.symm⟩, hs ▸ hentry⟩
      · rw [hrest (List.mem_map_of_mem hin)] at hentry
        exact ⟨Or.inr hin, hentry⟩
    · rintro ⟨⟨hs, hchange⟩ | hin, hentry⟩
      · exact Or.inl ⟨hs, hchange.symm, hs ▸ hentry⟩
      · rw [← hrest (List.mem_map_of_mem hin)] at hentry
        exact Or.inr ⟨hin, hentry⟩
  · intro s e
    rw [holds, List.mem_append, mem_retiring, hspec.olds, List.map_cons, List.mem_cons]
    constructor
    · rintro (⟨hs, hget', hsome⟩ | ⟨hin, hget', hsome⟩)
      · exact ⟨Or.inl hs, hs ▸ hget', hsome⟩
      · rw [hrest hin] at hget'
        exact ⟨Or.inr hin, hget', hsome⟩
    · rintro ⟨hs | hin, hget', hsome⟩
      · have hs : s = slot := hs
        exact Or.inl ⟨hs, hs ▸ hget', hsome⟩
      · rw [← hrest hin] at hget'
        exact Or.inr ⟨hin, hget', hsome⟩
  · rw [holds, List.map_append, List.map_cons]
    exact (retiring_slots slot _).append hspec.nodupOlds
  · rw [holds, List.map_append, listExtents_append, retiring_extents]
    have hstaged : stagedExtents ((slot, change) :: rest) =
        changeExtents change + stagedExtents rest := by
      unfold stagedExtents
      rw [List.map_cons, List.sum_cons]
    have hnext := hspec.extents
    calc c'.index.total Entry.extents +
            (changeExtents (c.index.get slot) + listExtents (m.olds.map Prod.snd))
        = (c'.index.total Entry.extents + listExtents (m.olds.map Prod.snd)) +
            changeExtents (c.index.get slot) := by abel
      _ = (c₁.index.total Entry.extents + changeExtents (c.index.get slot)) +
            stagedExtents rest := by
          rw [hnext]
          abel
      _ = _ := by
          rw [htotal, hstaged]
          abel

theorem commit_spec {c : FilesystemCache} {changes : List (Slot × Option Entry)}
    (h : (changes.map Prod.fst).Nodup) :
    CommitSpec c changes (commit c changes).1 (commit c changes).2 := by
  induction changes generalizing c with
  | nil =>
      exact
        { changed := fun hin => by cases hin
          frame := fun _ => rfl
          entries := by simp [commit]
          nodup := List.Sublist.refl _
          removals := by simp [commit]
          olds := by simp [commit]
          nodupOlds := List.Sublist.refl _
          extents := rfl
          owned := fun h => h
          mem := rfl }
  | cons head rest ih =>
      rcases head with ⟨slot, change⟩
      have hcons := List.nodup_cons.mp h
      cases change with
      | some entry =>
          have hmem : (c.put slot entry).1.mem = c.mem := rfl
          refine commitSpec_cons (c.put slot entry).1
            (m := (commit (c.put slot entry).1 rest).2) hcons.1 ?_ ?_ ?_ hmem
            (ih hcons.2) rfl ?_ rfl
          · exact fun s => OrderedMap.get_set _ _ _ _
          · have hset := OrderedMap.total_set c.index slot entry Entry.extents
            exact hset
          · exact fun howned => FilesystemCache.owned_put howned slot entry
          · simp [commit]
      | none =>
          refine commitSpec_cons (c.remove slot).1
            (m := (commit (c.remove slot).1 rest).2) hcons.1 ?_ ?_ ?_ rfl
            (ih hcons.2) rfl ?_ rfl
          · exact fun s => OrderedMap.get_delete _ _ _
          · have hdelete := OrderedMap.total_delete c.index slot Entry.extents
            exact hdelete.trans (add_zero _).symm
          · exact fun howned => howned
          · show (if (c.index.get slot).isSome then _ else _) = _
            simp only [true_and]
            split_ifs <;> rfl

/-- A commit without entries and removals changed nothing. -/
theorem CommitSpec.unchanged {c c' : FilesystemCache}
    {changes : List (Slot × Option Entry)} {m : Commit} (h : CommitSpec c changes c' m)
    (hentries : m.entries = []) (hremovals : m.removals = []) (slot : Slot) :
    c'.index.get slot = c.index.get slot := by
  by_cases hin : slot ∈ changes.map Prod.fst
  · rcases List.mem_map.mp hin with ⟨⟨s, change⟩, hmem, hs⟩
    have hs : s = slot := hs
    subst hs
    rw [h.changed hmem]
    cases change with
    | some entry =>
        have hentry := h.entries.mpr hmem
        rw [hentries] at hentry
        cases hentry
    | none =>
        cases hget : c.index.get s with
        | none => rfl
        | some old =>
            have hremoval := h.removals.mpr ⟨hmem, old, hget⟩
            rw [hremovals] at hremoval
            cases hremoval
  · exact h.frame hin

/-- The update of a commit, once its replaced versions have ids. -/
theorem delta_commit {c c' : FilesystemCache} {changes : List (Slot × Option Entry)}
    {m : Commit} (hnodup : (changes.map Prod.fst).Nodup) (h : CommitSpec c changes c' m)
    {updateId : UpdateId} {retired : List (Slot × RetireId)}
    (hslots : retired.map Prod.fst = m.olds.map Prod.fst) :
    Delta c.index
      { updateId := updateId
        entries := m.entries
        removals := m.removals
        retired := retired
        newSegments := segmentsOf m.entries } c'.index := by
  have hentrySlot : forall {slot}, slot ∈ m.entries.map Prod.fst ->
      slot ∈ changes.map Prod.fst := fun hin => h.nodup.subset hin
  refine
    { entries := fun hin => h.changed (h.entries.mp hin)
      nodup := hnodup.sublist h.nodup
      removals := fun hin => h.changed (h.removals.mp hin).1
      frame := ?_
      retiring := ?_
      complete := ?_
      nodupRetired := by
        show (retired.map Prod.fst).Nodup
        rw [hslots]
        exact hnodup.sublist h.nodupOlds
      segments := ?_ }
  · intro slot hentry hremoval
    by_cases hin : slot ∈ changes.map Prod.fst
    · rcases List.mem_map.mp hin with ⟨⟨s, change⟩, hmem, hs⟩
      have hs : s = slot := hs
      subst hs
      cases change with
      | some entry =>
          exact absurd (List.mem_map_of_mem (h.entries.mpr hmem)) hentry
      | none =>
          rw [h.changed hmem]
          cases hget : c.index.get s with
          | none => rfl
          | some old => exact absurd (h.removals.mpr ⟨hmem, old, hget⟩) hremoval
    · exact h.frame hin
  · intro slot id hin
    have hslot : slot ∈ m.olds.map Prod.fst := by
      rw [← hslots]
      exact List.mem_map_of_mem hin
    rcases List.mem_map.mp hslot with ⟨⟨s, old⟩, hold, hs⟩
    have hs : s = slot := hs
    subst hs
    rcases h.olds.mp hold with ⟨hchange, hget, hsome⟩
    rcases Option.isSome_iff_exists.mp hsome with ⟨e, he⟩
    refine ⟨?_, old, e, hget, he⟩
    rcases List.mem_map.mp hchange with ⟨⟨s', change⟩, hmem, hs'⟩
    have hs' : s' = s := hs'
    subst hs'
    cases change with
    | some entry => exact Or.inl (List.mem_map_of_mem (h.entries.mpr hmem))
    | none => exact Or.inr (h.removals.mpr ⟨hmem, old, hget⟩)
  · intro slot entry e htouched hget he
    have hchange : slot ∈ changes.map Prod.fst := by
      rcases htouched with hin | hin
      · exact hentrySlot hin
      · exact List.mem_map_of_mem (h.removals.mp hin).1
    have hold : (slot, entry) ∈ m.olds :=
      h.olds.mpr ⟨hchange, hget, by rw [he]; rfl⟩
    have hslot : slot ∈ retired.map Prod.fst := by
      rw [hslots]
      exact List.mem_map_of_mem hold
    rcases List.mem_map.mp hslot with ⟨⟨s, id⟩, hin, hs⟩
    have hs : s = slot := hs
    subst hs
    exact ⟨id, hin⟩
  · intro slot entry e hin he
    refine List.mem_toFinset.mpr (List.mem_filterMap.mpr ⟨(slot, entry), hin, ?_⟩)
    rw [he]
    rfl

end SharedMemoryFs
