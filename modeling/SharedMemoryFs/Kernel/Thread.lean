import SharedMemoryFs.Kernel.Pins

/-!
# Threads and updates

Every thread keeps a projection of the index and applies the same updates to
it.  {lit}`Delta` says what an update must contain to turn the projection of one
index into the projection of the next; {lit}`apply_spec` is the step lemma of
the simulation.

The source groups an update by place; its slots carry the place here.
-/

namespace SharedMemoryFs

open Foundation

abbrev UpdateId := Nat

abbrev Index := OrderedMap Slot Entry

/-- The message {lit}`vfs-update`. -/
structure Update where
  updateId : UpdateId
  entries : List (Slot × Entry)
  removals : List Slot
  retired : List (Slot × RetireId)
  newSegments : Finset SegmentId

/-- What {lit}`snapshot` hands to a new worker. -/
structure Snapshot where
  segments : Finset SegmentId
  entries : Index

/-- One thread's projection and pins.  {lit}`bound` and {lit}`released` are
histories no operation reads: the ids ever bound to a pinned file, and the ids
ever released. -/
structure Thread where
  segmentsMap : Finset SegmentId
  files : OrderedMap Slot File
  pins : Pins
  nextObject : Nat
  bound : List RetireId
  released : List RetireId

/-- The retained ids are those whose file some consumer still reads. -/
def Pins.retainAll (files : OrderedMap Slot File) :
    Pins -> List (Slot × RetireId) -> Pins × List RetireId
  | p, [] => (p, [])
  | p, (slot, id) :: rest =>
      let retain := p.retain (files.get slot) id
      let next := retainAll files retain.1 rest
      (next.1, if retain.2 then id :: next.2 else next.2)

namespace Thread

def new : Thread :=
  { segmentsMap := ∅
    files := OrderedMap.empty
    pins := Pins.new
    nextObject := 0
    bound := []
    released := [] }

def setFile (t : Thread) (published : Slot × Entry) : Thread :=
  { t with
    files := t.files.set published.1
      ⟨t.nextObject, projectEntry t.segmentsMap published.2⟩
    nextObject := t.nextObject + 1 }

/-- {lit}`#apply`. -/
def apply (t : Thread) (u : Update) : Thread × List RetireId :=
  let retaining := t.pins.retainAll t.files u.retired
  let published := u.entries.foldl setFile
    { t with
      segmentsMap := t.segmentsMap ∪ u.newSegments
      pins := retaining.1
      bound := t.bound ++ retaining.2 }
  ({ published with files := u.removals.foldl OrderedMap.delete published.files },
    retaining.2)

/-- {lit}`fromSnapshot`, as far as the projection goes. -/
def fromSnapshot (snapshot : Snapshot) : Thread :=
  snapshot.entries.entries.foldl setFile
    { Thread.new with segmentsMap := snapshot.segments }

def acquire (t : Thread) (consumer : ConsumerId) (slot : Slot) : Thread :=
  match t.files.get slot with
  | none => t
  | some file => { t with pins := t.pins.acquire consumer file }

def release (t : Thread) (consumer : ConsumerId) : Thread × Option RetireId :=
  let drop := t.pins.releaseHandle consumer
  ({ t with pins := drop.1, released := t.released ++ drop.2.toList }, drop.2)

end Thread

/-!
# What a thread's state means
-/

/-- The thread's files are the index, and it knows every segment they need. -/
structure Thread.Projects (t : Thread) (index : Index) : Prop where
  files : forall slot,
    (t.files.get slot).map File.content = (index.get slot).map Entry.view
  segments : forall {slot entry e}, index.get slot = some entry ->
    entry.extent? = some e -> e.segmentId ∈ t.segmentsMap

def Pins.binds (p : Pins) (id : RetireId) : Nat :=
  p.retired.total (fun i => if i = id then 1 else 0)

structure Thread.Sound (t : Thread) : Prop where
  pins : t.pins.Sound
  below : forall {slot file}, t.files.get slot = some file ->
    file.object < t.nextObject
  distinct : forall {slot slot' file file'}, t.files.get slot = some file ->
    t.files.get slot' = some file' -> file.object = file'.object -> slot = slot'
  pinnedBelow : forall {file}, t.pins.counts.has file = true ->
    file.object < t.nextObject
  pinned : forall {file}, t.pins.counts.has file = true ->
    (exists slot, t.files.get slot = some file) ∨
      (exists id, t.pins.retired.get file = some id) ∨ file.content.extent? = none
  gone : forall {file id slot}, t.pins.retired.get file = some id ->
    t.files.get slot ≠ some file
  log : forall id, t.bound.count id = t.released.count id + t.pins.binds id

/-- The update {lit}`u` leads from {lit}`index` to {lit}`index'`. -/
structure Delta (index : Index) (u : Update) (index' : Index) : Prop where
  entries : forall {slot entry}, (slot, entry) ∈ u.entries ->
    index'.get slot = some entry
  nodup : (u.entries.map Prod.fst).Nodup
  removals : forall {slot}, slot ∈ u.removals -> index'.get slot = none
  frame : forall {slot}, slot ∉ u.entries.map Prod.fst -> slot ∉ u.removals ->
    index'.get slot = index.get slot
  retiring : forall {slot id}, (slot, id) ∈ u.retired ->
    (slot ∈ u.entries.map Prod.fst ∨ slot ∈ u.removals) ∧
      exists entry e, index.get slot = some entry ∧ entry.extent? = some e
  complete : forall {slot entry e},
    slot ∈ u.entries.map Prod.fst ∨ slot ∈ u.removals ->
    index.get slot = some entry -> entry.extent? = some e ->
    exists id, (slot, id) ∈ u.retired
  nodupRetired : (u.retired.map Prod.fst).Nodup
  segments : forall {slot entry e}, (slot, entry) ∈ u.entries ->
    entry.extent? = some e -> e.segmentId ∈ u.newSegments

/-!
# Retaining
-/

def pinnedAt (files : OrderedMap Slot File) (p : Pins) (slot : Slot) : Bool :=
  (files.get slot).any p.counts.has

theorem retain_snd (p : Pins) (file : Option File) (id : RetireId) :
    (p.retain file id).2 = file.any p.counts.has := by
  cases file with
  | none => rfl
  | some file =>
      cases h : p.counts.has file with
      | false => simp [Pins.retain_free h, h]
      | true => simp [Pins.retain_pinned h, h]

@[simp] theorem retain_counts (p : Pins) (file : Option File) (id : RetireId) :
    (p.retain file id).1.counts = p.counts := by
  cases file with
  | none => rfl
  | some file =>
      cases h : p.counts.has file with
      | false => rw [Pins.retain_free h]
      | true => rw [Pins.retain_pinned h]

@[simp] theorem retain_held (p : Pins) (file : Option File) (id : RetireId) :
    (p.retain file id).1.held = p.held := by
  cases file with
  | none => rfl
  | some file =>
      cases h : p.counts.has file with
      | false => rw [Pins.retain_free h]
      | true => rw [Pins.retain_pinned h]

theorem retainAll_counts (files : OrderedMap Slot File) (p : Pins)
    (retired : List (Slot × RetireId)) :
    (p.retainAll files retired).1.counts = p.counts ∧
      (p.retainAll files retired).1.held = p.held := by
  induction retired generalizing p with
  | nil => exact ⟨rfl, rfl⟩
  | cons head rest ih =>
      rcases head with ⟨slot, id⟩
      rcases ih (p.retain (files.get slot) id).1 with ⟨hcounts, hheld⟩
      exact ⟨hcounts.trans (retain_counts p _ id), hheld.trans (retain_held p _ id)⟩

theorem retainAll_snd (files : OrderedMap Slot File) (p : Pins)
    (retired : List (Slot × RetireId)) :
    (p.retainAll files retired).2 =
      (retired.filter (fun r => pinnedAt files p r.1)).map Prod.snd := by
  induction retired generalizing p with
  | nil => rfl
  | cons head rest ih =>
      rcases head with ⟨slot, id⟩
      have hrest : (p.retainAll files ((slot, id) :: rest)).2 =
          if pinnedAt files p slot then
            id :: (rest.filter (fun r => pinnedAt files p r.1)).map Prod.snd
          else (rest.filter (fun r => pinnedAt files p r.1)).map Prod.snd := by
        have hsame : pinnedAt files (p.retain (files.get slot) id).1 =
            pinnedAt files p := by
          unfold pinnedAt
          rw [retain_counts]
        show (if (p.retain (files.get slot) id).2 then _ else _) = _
        rw [retain_snd, ih, hsame]
        rfl
      rw [hrest]
      cases hpinned : pinnedAt files p slot with
      | false => simp [hpinned]
      | true => simp [hpinned]

/-- Distinct slots never share a file object. -/
def FilesInjective (files : OrderedMap Slot File) : Prop :=
  forall {slot slot' file}, files.get slot = some file ->
    files.get slot' = some file -> slot = slot'

structure RetainSpec (files : OrderedMap Slot File) (p : Pins)
    (retired : List (Slot × RetireId)) (p' : Pins) (retained : List RetireId) :
    Prop where
  get : forall file id, p'.retired.get file = some id <->
    p.retired.get file = some id ∨
      exists slot, (slot, id) ∈ retired ∧ files.get slot = some file ∧
        p.counts.has file = true
  binds : forall id, p'.binds id = p.binds id + retained.count id

theorem retainAll_spec {files : OrderedMap Slot File} (hfiles : FilesInjective files)
    {p : Pins} {retired : List (Slot × RetireId)}
    (hnodup : (retired.map Prod.fst).Nodup)
    (hfree : forall {slot file}, slot ∈ retired.map Prod.fst ->
      files.get slot = some file -> p.retired.get file = none) :
    RetainSpec files p retired (p.retainAll files retired).1
      (p.retainAll files retired).2 := by
  induction retired generalizing p with
  | nil =>
      exact
        { get := fun file id => by simp [Pins.retainAll]
          binds := fun id => rfl }
  | cons head rest ih =>
      rcases head with ⟨slot, id⟩
      have hcons := List.nodup_cons.mp hnodup
      cases hget : files.get slot with
      | none =>
          have hsame : p.retainAll files ((slot, id) :: rest) =
              p.retainAll files rest := by
            simp [Pins.retainAll, hget, Pins.retain_none]
          have hspec := ih hcons.2 (fun hmem => hfree (List.mem_cons_of_mem _ hmem))
          rw [hsame]
          refine { get := ?_, binds := hspec.binds }
          intro file i
          rw [hspec.get file i]
          constructor
          · rintro (hold | ⟨s, hmem, hs⟩)
            · exact Or.inl hold
            · exact Or.inr ⟨s, List.mem_cons_of_mem _ hmem, hs⟩
          · rintro (hold | ⟨s, hmem, hs⟩)
            · exact Or.inl hold
            · rcases List.mem_cons.mp hmem with heq | hmem
              · rw [(Prod.mk.inj heq).1, hget] at hs
                cases hs.1
              · exact Or.inr ⟨s, hmem, hs⟩
      | some f =>
          cases hhas : p.counts.has f with
          | false =>
              have hsame : p.retainAll files ((slot, id) :: rest) =
                  p.retainAll files rest := by
                simp [Pins.retainAll, hget, Pins.retain_free hhas]
              have hspec := ih hcons.2 (fun hmem => hfree (List.mem_cons_of_mem _ hmem))
              rw [hsame]
              refine { get := ?_, binds := hspec.binds }
              intro file i
              rw [hspec.get file i]
              constructor
              · rintro (hold | ⟨s, hmem, hs⟩)
                · exact Or.inl hold
                · exact Or.inr ⟨s, List.mem_cons_of_mem _ hmem, hs⟩
              · rintro (hold | ⟨s, hmem, hs⟩)
                · exact Or.inl hold
                · rcases List.mem_cons.mp hmem with heq | hmem
                  · rw [(Prod.mk.inj heq).1, hget] at hs
                    rw [← Option.some.inj hs.1, hhas] at hs
                    cases hs.2
                  · exact Or.inr ⟨s, hmem, hs⟩
          | true =>
              let q : Pins := { p with retired := p.retired.set f id }
              have hstep : p.retainAll files ((slot, id) :: rest) =
                  ((q.retainAll files rest).1, id :: (q.retainAll files rest).2) := by
                simp [Pins.retainAll, hget, Pins.retain_pinned hhas, q]
              have hnone : p.retired.get f = none := hfree (by simp) hget
              -- A later slot holds another file, so its binding is still free.
              have hspec := ih (p := q) hcons.2 (by
                intro s file hmem hs
                have hne : file ≠ f := by
                  intro heq
                  rw [heq] at hs
                  exact hcons.1 (hfiles hs hget ▸ hmem)
                show (p.retired.set f id).get file = none
                rw [OrderedMap.get_set_ne _ _ hne]
                exact hfree (List.mem_cons_of_mem _ hmem) hs)
              rw [hstep]
              constructor
              · intro file i
                rw [hspec.get file i]
                show (p.retired.set f id).get file = some i ∨ _ <-> _
                rw [OrderedMap.get_set]
                constructor
                · rintro (hold | ⟨s, hmem, hs⟩)
                  · by_cases hf : file = f
                    · rw [if_pos hf] at hold
                      rw [hf, ← Option.some.inj hold]
                      exact Or.inr ⟨slot, List.mem_cons_self, hget, hhas⟩
                    · rw [if_neg hf] at hold
                      exact Or.inl hold
                  · exact Or.inr ⟨s, List.mem_cons_of_mem _ hmem, hs⟩
                · rintro (hold | ⟨s, hmem, hs⟩)
                  · have hne : file ≠ f := by
                      intro heq
                      rw [heq, hnone] at hold
                      cases hold
                    rw [if_neg hne]
                    exact Or.inl hold
                  · rcases List.mem_cons.mp hmem with heq | hmem
                    · rcases Prod.mk.inj heq with ⟨hslot, hid⟩
                      rw [hslot, hget] at hs
                      rw [if_pos (Option.some.inj hs.1).symm, hid]
                      exact Or.inl rfl
                    · exact Or.inr ⟨s, hmem, hs⟩
              · intro i
                rw [hspec.binds i]
                show (p.retired.set f id).total _ + _ = _
                rw [OrderedMap.total_set_new hnone, List.count_cons]
                unfold Pins.binds
                simp only [beq_iff_eq]
                omega

/-!
# Applying an update
-/

/-- Every file object is older than {lit}`next` and at one slot only. -/
structure FilesSound (files : OrderedMap Slot File) (next : Nat) : Prop where
  below : forall {slot file}, files.get slot = some file -> file.object < next
  distinct : forall {slot slot' file file'}, files.get slot = some file ->
    files.get slot' = some file' -> file.object = file'.object -> slot = slot'

theorem FilesSound.injective {files : OrderedMap Slot File} {next : Nat}
    (h : FilesSound files next) : FilesInjective files :=
  fun hget hget' => h.distinct hget hget' rfl

theorem FilesSound.set {files : OrderedMap Slot File} {next : Nat}
    (h : FilesSound files next) (slot : Slot) (content : Content) :
    FilesSound (files.set slot ⟨next, content⟩) (next + 1) := by
  have hget : forall {s file}, (files.set slot ⟨next, content⟩).get s = some file ->
      (s = slot ∧ file.object = next) ∨ (files.get s = some file ∧ file.object < next) := by
    intro s file hs
    rw [OrderedMap.get_set] at hs
    by_cases heq : s = slot
    · rw [if_pos heq] at hs
      rw [← Option.some.inj hs]
      exact Or.inl ⟨heq, rfl⟩
    · rw [if_neg heq] at hs
      exact Or.inr ⟨hs, h.below hs⟩
  constructor
  · intro s file hs
    rcases hget hs with ⟨_, hobject⟩ | ⟨_, hobject⟩ <;> omega
  · intro s s' file file' hs hs' hobject
    rcases hget hs with ⟨hslot, hnew⟩ | ⟨hold, hlt⟩
    · rcases hget hs' with ⟨hslot', _⟩ | ⟨_, hlt'⟩
      · rw [hslot, hslot']
      · omega
    · rcases hget hs' with ⟨_, hnew'⟩ | ⟨hold', _⟩
      · omega
      · exact h.distinct hold hold' hobject

theorem FilesSound.of_subset {files files' : OrderedMap Slot File} {next : Nat}
    (h : FilesSound files next)
    (hsub : forall {slot file}, files'.get slot = some file ->
      files.get slot = some file) : FilesSound files' next where
  below := fun hget => h.below (hsub hget)
  distinct := fun hget hget' => h.distinct (hsub hget) (hsub hget')

theorem Thread.Sound.files {t : Thread} (h : t.Sound) :
    FilesSound t.files t.nextObject where
  below := h.below
  distinct := h.distinct

/-- What projecting a list of published entries does. -/
structure PublishSpec (t : Thread) (entries : List (Slot × Entry)) (t' : Thread) :
    Prop where
  segmentsMap : t'.segmentsMap = t.segmentsMap
  pins : t'.pins = t.pins
  bound : t'.bound = t.bound
  released : t'.released = t.released
  nextObject : t.nextObject ≤ t'.nextObject
  files : FilesSound t'.files t'.nextObject
  frame : forall {slot}, slot ∉ entries.map Prod.fst ->
    t'.files.get slot = t.files.get slot
  get : forall {slot entry}, (slot, entry) ∈ entries ->
    exists object, t.nextObject ≤ object ∧
      t'.files.get slot = some ⟨object, projectEntry t.segmentsMap entry⟩

theorem setFile_spec {t : Thread} (h : FilesSound t.files t.nextObject)
    {entries : List (Slot × Entry)} (hnodup : (entries.map Prod.fst).Nodup) :
    PublishSpec t entries (entries.foldl Thread.setFile t) := by
  induction entries generalizing t with
  | nil =>
      exact
        { segmentsMap := rfl
          pins := rfl
          bound := rfl
          released := rfl
          nextObject := le_rfl
          files := h
          frame := fun _ => rfl
          get := fun hmem => by cases hmem }
  | cons head rest ih =>
      rcases head with ⟨slot, entry⟩
      have hcons := List.nodup_cons.mp hnodup
      have hspec := ih (t := t.setFile (slot, entry)) (h.set slot _) hcons.2
      refine
        { segmentsMap := hspec.segmentsMap
          pins := hspec.pins
          bound := hspec.bound
          released := hspec.released
          nextObject := (Nat.le_succ _).trans hspec.nextObject
          files := hspec.files
          frame := ?_
          get := ?_ }
      · intro s hs
        have hs' : s ≠ slot ∧ s ∉ rest.map Prod.fst := by
          simpa only [List.map_cons, List.mem_cons, not_or] using hs
        exact (hspec.frame hs'.2).trans (OrderedMap.get_set_ne _ _ hs'.1)
      · intro s e hmem
        rcases List.mem_cons.mp hmem with heq | hrest
        · rcases Prod.mk.inj heq with ⟨hslot, hentry⟩
          refine ⟨t.nextObject, le_rfl, ?_⟩
          rw [hslot, hentry]
          show ((rest.foldl Thread.setFile (t.setFile (slot, entry))).files).get slot = _
          rw [hspec.frame hcons.1]
          exact OrderedMap.get_set_self _ _ _
        · rcases hspec.get hrest with ⟨object, hle, hget⟩
          exact ⟨object, (Nat.le_succ _).trans hle, hget⟩

/-- What applying one update does to a thread. -/
structure ApplySpec (t : Thread) (u : Update) (t' : Thread)
    (retained : List RetireId) (index' : Index) : Prop where
  sound : t'.Sound
  projects : t'.Projects index'
  pinned : retained =
    (u.retired.filter (fun r => pinnedAt t.files t.pins r.1)).map Prod.snd
  bound : t'.bound = t.bound ++ retained
  released : t'.released = t.released
  binds : forall file id, t'.pins.retired.get file = some id <->
    t.pins.retired.get file = some id ∨
      exists slot, (slot, id) ∈ u.retired ∧ t.files.get slot = some file ∧
        t.pins.counts.has file = true
  counts : t'.pins.counts = t.pins.counts
  held : t'.pins.held = t.pins.held

theorem apply_spec {t : Thread} (h : t.Sound) {index index' : Index} {u : Update}
    (hprojects : t.Projects index) (hdelta : Delta index u index') :
    ApplySpec t u (t.apply u).1 (t.apply u).2 index' := by
  let retaining := t.pins.retainAll t.files u.retired
  let t₁ : Thread :=
    { t with
      segmentsMap := t.segmentsMap ∪ u.newSegments
      pins := retaining.1
      bound := t.bound ++ retaining.2 }
  have hretain := retainAll_spec h.files.injective (p := t.pins) hdelta.nodupRetired
    (by
      intro slot file _ hget
      cases hid : t.pins.retired.get file with
      | none => rfl
      | some id => exact absurd hget (h.gone hid))
  have hsnd := retainAll_snd t.files t.pins u.retired
  rcases retainAll_counts t.files t.pins u.retired with ⟨hcounts, hheld⟩
  have hpublish := setFile_spec (t := t₁) h.files hdelta.nodup
  let t₂ := u.entries.foldl Thread.setFile t₁
  have happly : t.apply u =
      ({ t₂ with files := u.removals.foldl OrderedMap.delete t₂.files },
        retaining.2) := rfl
  have hget : forall slot, (u.removals.foldl OrderedMap.delete t₂.files).get slot =
      if slot ∈ u.removals then none else t₂.files.get slot :=
    fun slot => OrderedMap.get_foldl_delete _ _ _
  -- Where a file of the new projection comes from.
  have hcases : forall {slot file},
      (u.removals.foldl OrderedMap.delete t₂.files).get slot = some file ->
      slot ∉ u.removals ∧
        ((slot ∉ u.entries.map Prod.fst ∧ t.files.get slot = some file) ∨
          (slot ∈ u.entries.map Prod.fst ∧ t.nextObject ≤ file.object)) := by
    intro slot file hfile
    rw [hget] at hfile
    by_cases hremoved : slot ∈ u.removals
    · rw [if_pos hremoved] at hfile
      cases hfile
    rw [if_neg hremoved] at hfile
    refine ⟨hremoved, ?_⟩
    by_cases hentry : slot ∈ u.entries.map Prod.fst
    · rcases List.mem_map.mp hentry with ⟨⟨s, entry⟩, hmem, hslot⟩
      have hslot : s = slot := hslot
      subst hslot
      rcases hpublish.get hmem with ⟨object, hle, hnew⟩
      rw [hnew] at hfile
      rw [← Option.some.inj hfile]
      exact Or.inr ⟨hentry, hle⟩
    · rw [hpublish.frame hentry] at hfile
      exact Or.inl ⟨hentry, hfile⟩
  have hsubset : forall {slot file},
      (u.removals.foldl OrderedMap.delete t₂.files).get slot = some file ->
      t₂.files.get slot = some file := by
    intro slot file hfile
    rw [hget] at hfile
    by_cases hremoved : slot ∈ u.removals
    · rw [if_pos hremoved] at hfile
      cases hfile
    · rw [if_neg hremoved] at hfile
      exact hfile
  have hfiles := hpublish.files.of_subset hsubset
  have hpins : t₂.pins = retaining.1 := hpublish.pins
  have hhas : forall file, retaining.1.counts.has file = t.pins.counts.has file := by
    intro file
    rw [show retaining.1.counts = t.pins.counts from hcounts]
  have hlater : t.nextObject ≤ t₂.nextObject := hpublish.nextObject
  rw [happly]
  constructor
  · refine
      { pins := ?_
        below := hfiles.below
        distinct := hfiles.distinct
        pinnedBelow := ?_
        pinned := ?_
        gone := ?_
        log := ?_ }
    · show t₂.pins.Sound
      rw [hpins]
      refine { counts := ?_, pos := ?_, retired := ?_ }
      · intro file
        unfold Pins.consumers
        rw [show retaining.1.counts = t.pins.counts from hcounts,
          show retaining.1.held = t.pins.held from hheld]
        exact h.pins.counts file
      · rw [show retaining.1.counts = t.pins.counts from hcounts]
        exact h.pins.pos
      · intro file id hid
        rw [hhas]
        rcases (hretain.get file id).mp hid with hold | ⟨slot, _, _, hhas⟩
        · exact h.pins.retired hold
        · exact hhas
    · intro file hfile
      have hfile : t₂.pins.counts.has file = true := hfile
      rw [hpins, hhas] at hfile
      exact (h.pinnedBelow hfile).trans_le hlater
    · intro file hfile
      have hfile : t₂.pins.counts.has file = true := hfile
      rw [hpins, hhas] at hfile
      show (exists slot, (u.removals.foldl OrderedMap.delete t₂.files).get slot = some file) ∨
        (exists id, t₂.pins.retired.get file = some id) ∨ _
      rw [hpins]
      rcases h.pinned hfile with ⟨slot, hslot⟩ | ⟨id, hid⟩ | hbare
      · by_cases htouched : slot ∈ u.entries.map Prod.fst ∨ slot ∈ u.removals
        · have hcontent := hprojects.files slot
          rw [hslot] at hcontent
          cases hentry : index.get slot with
          | none =>
              rw [hentry] at hcontent
              cases hcontent
          | some entry =>
              rw [hentry] at hcontent
              have hview : file.content = entry.view := Option.some.inj hcontent
              cases hext : entry.extent? with
              | none =>
                  refine Or.inr (Or.inr ?_)
                  rw [hview, extent_view, hext]
              | some e =>
                  rcases hdelta.complete htouched hentry hext with ⟨id, hid⟩
                  exact Or.inr (Or.inl ⟨id, (hretain.get file id).mpr
                    (Or.inr ⟨slot, hid, hslot, hfile⟩)⟩)
        · have hout := not_or.mp htouched
          refine Or.inl ⟨slot, ?_⟩
          rw [hget, if_neg hout.2, hpublish.frame hout.1]
          exact hslot
      · exact Or.inr (Or.inl ⟨id, (hretain.get file id).mpr (Or.inl hid)⟩)
      · exact Or.inr (Or.inr hbare)
    · intro file id slot hid hfile
      have hid : t₂.pins.retired.get file = some id := hid
      rw [hpins] at hid
      rcases hcases hfile with ⟨hremoved, ⟨hentry, hold⟩ | ⟨_, hnew⟩⟩
      · rcases (hretain.get file id).mp hid with hbound | ⟨s, hmem, hs, _⟩
        · exact h.gone hbound hold
        · have heq : s = slot := h.files.injective hs hold
          subst heq
          rcases (hdelta.retiring hmem).1 with hin | hin
          · exact hentry hin
          · exact hremoved hin
      · have hpinned : t.pins.counts.has file = true := by
          rcases (hretain.get file id).mp hid with hold | ⟨_, _, _, hhas⟩
          · exact h.pins.retired hold
          · exact hhas
        have hlt := h.pinnedBelow hpinned
        omega
    · intro id
      show t₂.bound.count id = t₂.released.count id + t₂.pins.binds id
      rw [hpins, hpublish.bound, hpublish.released, hretain.binds]
      show (t.bound ++ retaining.2).count id = t.released.count id + _
      rw [List.count_append, h.log id]
      exact Nat.add_assoc _ _ _
  · constructor
    · intro slot
      show ((u.removals.foldl OrderedMap.delete t₂.files).get slot).map File.content = _
      rw [hget]
      by_cases hremoved : slot ∈ u.removals
      · rw [if_pos hremoved, hdelta.removals hremoved]
        rfl
      rw [if_neg hremoved]
      by_cases hentry : slot ∈ u.entries.map Prod.fst
      · rcases List.mem_map.mp hentry with ⟨⟨s, entry⟩, hmem, hslot⟩
        have hslot : s = slot := hslot
        subst hslot
        rcases hpublish.get hmem with ⟨object, _, hnew⟩
        rw [hnew, hdelta.entries hmem]
        refine congrArg some (projectEntry_eq_view ?_)
        intro e he
        exact Finset.mem_union_right _ (hdelta.segments hmem he)
      · rw [hpublish.frame hentry, hdelta.frame hentry hremoved]
        exact hprojects.files slot
    · intro slot entry e hentry he
      show e.segmentId ∈ t₂.segmentsMap
      rw [hpublish.segmentsMap]
      by_cases hremoved : slot ∈ u.removals
      · rw [hdelta.removals hremoved] at hentry
        cases hentry
      by_cases hin : slot ∈ u.entries.map Prod.fst
      · rcases List.mem_map.mp hin with ⟨⟨s, published⟩, hmem, hslot⟩
        have hslot : s = slot := hslot
        subst hslot
        rw [hdelta.entries hmem] at hentry
        rw [← Option.some.inj hentry] at he
        exact Finset.mem_union_right _ (hdelta.segments hmem he)
      · rw [hdelta.frame hin hremoved] at hentry
        exact Finset.mem_union_left _ (hprojects.segments hentry he)
  · exact hsnd
  · show t₂.bound = _
    exact hpublish.bound
  · show t₂.released = _
    exact hpublish.released
  · show forall file id, t₂.pins.retired.get file = some id <-> _
    rw [hpins]
    exact hretain.get
  · show t₂.pins.counts = _
    rw [hpins]
    exact hcounts
  · show t₂.pins.held = _
    rw [hpins]
    exact hheld

/-- A reported id is bound to a pin. -/
theorem ApplySpec.retained_bound {t t' : Thread} {u : Update} {retained : List RetireId}
    {index' : Index} (h : ApplySpec t u t' retained index') {id : RetireId}
    (hid : id ∈ retained) : exists file, t'.pins.retired.get file = some id := by
  rw [h.pinned] at hid
  rcases List.mem_map.mp hid with ⟨⟨slot, i⟩, hmem, hi⟩
  rcases List.mem_filter.mp hmem with ⟨hretired, hpinned⟩
  rcases (Option.any_eq_true _ _).mp hpinned with ⟨file, hfile, hcounted⟩
  have hi : i = id := hi
  subst hi
  exact ⟨file, (h.binds file i).mpr (Or.inr ⟨slot, hretired, hfile, hcounted⟩)⟩

/-!
# Attaching
-/

theorem sound_new : Thread.new.Sound where
  pins := Pins.sound_new
  below := fun h => by cases h
  distinct := fun h => by cases h
  pinnedBelow := fun h => by cases h
  pinned := fun h => by cases h
  gone := fun h => by cases h
  log := fun _ => rfl

/-- The snapshot carries every segment its entries need. -/
def Snapshot.Complete (snapshot : Snapshot) : Prop :=
  forall {slot entry e}, snapshot.entries.get slot = some entry ->
    entry.extent? = some e -> e.segmentId ∈ snapshot.segments

structure AttachSpec (snapshot : Snapshot) (t : Thread) : Prop where
  sound : t.Sound
  projects : t.Projects snapshot.entries
  pins : t.pins = Pins.new
  bound : t.bound = []
  released : t.released = []

theorem fromSnapshot_spec {snapshot : Snapshot} (h : snapshot.Complete) :
    AttachSpec snapshot (Thread.fromSnapshot snapshot) := by
  let t₀ : Thread := { Thread.new with segmentsMap := snapshot.segments }
  have hempty : FilesSound t₀.files t₀.nextObject :=
    { below := fun h => by cases h
      distinct := fun h => by cases h }
  have hspec := setFile_spec (t := t₀) hempty snapshot.entries.nodup
  have hpins : (Thread.fromSnapshot snapshot).pins = Pins.new := hspec.pins
  have hcounts : forall file,
      (Thread.fromSnapshot snapshot).pins.counts.has file = false := by
    intro file
    rw [hpins]
    rfl
  have hretired : forall file,
      (Thread.fromSnapshot snapshot).pins.retired.get file = none := by
    intro file
    rw [hpins]
    rfl
  refine
    { sound := ?_
      projects := ?_
      pins := hpins
      bound := hspec.bound
      released := hspec.released }
  · exact
      { pins := hpins ▸ Pins.sound_new
        below := hspec.files.below
        distinct := hspec.files.distinct
        pinnedBelow := fun {file} hfile => by
          rw [hcounts file] at hfile
          cases hfile
        pinned := fun {file} hfile => by
          rw [hcounts file] at hfile
          cases hfile
        gone := fun {file} _ _ hid => by
          rw [hretired file] at hid
          cases hid
        log := fun id => by
          show (snapshot.entries.entries.foldl Thread.setFile t₀).bound.count id =
            (snapshot.entries.entries.foldl Thread.setFile t₀).released.count id +
              (snapshot.entries.entries.foldl Thread.setFile t₀).pins.binds id
          rw [hspec.bound, hspec.released, hspec.pins]
          rfl }
  · constructor
    · intro slot
      show ((snapshot.entries.entries.foldl Thread.setFile t₀).files.get slot).map
        File.content = _
      cases hget : snapshot.entries.get slot with
      | none =>
          have hout : slot ∉ snapshot.entries.entries.map Prod.fst := by
            intro hmem
            rcases OrderedMap.mem_keys_iff.mp hmem with ⟨entry, hentry⟩
            rw [hget] at hentry
            cases hentry
          rw [hspec.frame hout]
          rfl
      | some entry =>
          rcases hspec.get (OrderedMap.mem_entries_iff.mpr hget) with ⟨object, _, hnew⟩
          rw [hnew]
          exact congrArg some (projectEntry_eq_view (fun e he => h hget he))
    · intro slot entry e hget he
      show e.segmentId ∈
        (snapshot.entries.entries.foldl Thread.setFile t₀).segmentsMap
      rw [hspec.segmentsMap]
      exact h hget he

/-!
# Consumers
-/

theorem Thread.Projects.of_eq {t t' : Thread} {index : Index} (h : t.Projects index)
    (hfiles : t'.files = t.files) (hsegments : t'.segmentsMap = t.segmentsMap) :
    t'.Projects index where
  files := hfiles ▸ h.files
  segments := hsegments ▸ h.segments

theorem sound_acquire {t : Thread} (h : t.Sound) {consumer : ConsumerId}
    (hnew : t.pins.held.get consumer = none) (slot : Slot) :
    (t.acquire consumer slot).Sound := by
  unfold Thread.acquire
  cases hget : t.files.get slot with
  | none => exact h
  | some file =>
      have hhas : forall {f}, (t.pins.acquire consumer file).counts.has f = true ->
          f = file ∨ t.pins.counts.has f = true := by
        intro f hf
        have hf : (t.pins.counts.set file _).has f = true := hf
        rw [OrderedMap.has_iff, OrderedMap.get_set] at hf
        by_cases heq : f = file
        · exact Or.inl heq
        · rw [if_neg heq] at hf
          exact Or.inr (OrderedMap.has_iff.mpr hf)
      exact
        { pins := Pins.sound_acquire h.pins hnew file
          below := h.below
          distinct := h.distinct
          pinnedBelow := fun hf => by
            rcases hhas hf with heq | hold
            · rw [heq]
              exact h.below hget
            · exact h.pinnedBelow hold
          pinned := fun hf => by
            rcases hhas hf with heq | hold
            · rw [heq]
              exact Or.inl ⟨slot, hget⟩
            · exact h.pinned hold
          gone := h.gone
          log := h.log }

/-- What the last or any other release of a consumer does to its thread. -/
structure ThreadReleaseSpec (t t' : Thread) (released : Option RetireId) : Prop where
  sound : t'.Sound
  files : t'.files = t.files
  segmentsMap : t'.segmentsMap = t.segmentsMap
  bound : t'.bound = t.bound
  log : t'.released = t.released ++ released.toList
  counts : forall {file}, t'.pins.counts.has file = true ->
    t.pins.counts.has file = true
  retired : forall {file id}, t'.pins.retired.get file = some id ->
    t.pins.retired.get file = some id
  done : forall {id}, released = some id -> exists file,
    t.pins.retired.get file = some id ∧ t'.pins.retired = t.pins.retired.delete file
  kept : released = none -> t'.pins.retired = t.pins.retired

theorem release_spec {t : Thread} (h : t.Sound) (consumer : ConsumerId) :
    ThreadReleaseSpec t (t.release consumer).1 (t.release consumer).2 := by
  have hspec := Pins.releaseHandle_spec h.pins consumer
  have hretired : forall {file id},
      (t.pins.releaseHandle consumer).1.retired.get file = some id ->
        t.pins.retired.get file = some id := by
    intro file id hid
    cases hdone : (t.pins.releaseHandle consumer).2 with
    | none =>
        rw [hspec.kept hdone] at hid
        exact hid
    | some i =>
        rcases hspec.released i hdone with ⟨f, _, _, heq⟩
        rw [heq, OrderedMap.get_delete] at hid
        by_cases hf : file = f
        · rw [if_pos hf] at hid
          cases hid
        · rw [if_neg hf] at hid
          exact hid
  refine
    { sound := ?_
      files := rfl
      segmentsMap := rfl
      bound := rfl
      log := rfl
      counts := hspec.counts
      retired := hretired
      done := fun {id} hdone => by
        rcases hspec.released id hdone with ⟨file, hid, _, heq⟩
        exact ⟨file, hid, heq⟩
      kept := hspec.kept }
  refine
    { pins := hspec.sound
      below := h.below
      distinct := h.distinct
      pinnedBelow := fun hf => h.pinnedBelow (hspec.counts hf)
      pinned := ?_
      gone := fun hid => h.gone (hretired hid)
      log := ?_ }
  · intro file hfile
    rcases h.pinned (hspec.counts hfile) with hcurrent | ⟨id, hid⟩ | hbare
    · exact Or.inl hcurrent
    · refine Or.inr (Or.inl ?_)
      show exists id, (t.pins.releaseHandle consumer).1.retired.get file = some id
      cases hdone : (t.pins.releaseHandle consumer).2 with
      | none =>
          rw [hspec.kept hdone]
          exact ⟨id, hid⟩
      | some i =>
          rcases hspec.released i hdone with ⟨f, _, hgone, heq⟩
          by_cases hsame : file = f
          · have hfile : (t.pins.releaseHandle consumer).1.counts.has file = true := hfile
            rw [hsame, hgone] at hfile
            cases hfile
          · rw [heq, OrderedMap.get_delete_ne _ hsame]
            exact ⟨id, hid⟩
    · exact Or.inr (Or.inr hbare)
  · intro id
    show t.bound.count id =
      (t.released ++ (t.pins.releaseHandle consumer).2.toList).count id +
        (t.pins.releaseHandle consumer).1.binds id
    rw [h.log id, List.count_append]
    unfold Pins.binds
    cases hdone : (t.pins.releaseHandle consumer).2 with
    | none =>
        rw [hspec.kept hdone]
        rfl
    | some i =>
        rcases hspec.released i hdone with ⟨f, hf, _, heq⟩
        have htotal := OrderedMap.total_delete t.pins.retired f
          (fun i => if i = id then 1 else 0)
        rw [hf, Option.elim_some] at htotal
        rw [heq, ← htotal, Option.toList_some, List.count_singleton]
        simp only [beq_iff_eq]
        omega

end SharedMemoryFs
