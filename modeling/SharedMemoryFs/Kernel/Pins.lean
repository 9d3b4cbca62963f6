import SharedMemoryFs.Cache.Filesystem

/-!
# Projected files and their pins

A thread sees a published entry as a file object: a view of a shared buffer,
an empty buffer, or nothing but a path.  Streams and leases pin the file they
started with.  Files are compared by object identity in the source, so a
projected file carries its object's number.
-/

namespace SharedMemoryFs

open Foundation

abbrev RetireId := Nat

abbrev ConsumerId := Nat

/-- The {lit}`data` of a projected file.  A shared buffer is named by its
segment; a view of a segment the thread does not know is a TypeError in the
source. -/
inductive FileData where
  | null
  | empty
  | view (sab : Option SegmentId) (offset length : Nat)
deriving DecidableEq, Repr

structure Content where
  data : FileData
  stat : Stat
  metadata : Option Cloneable
  scriptOptions : Option Cloneable
  path : Option String
deriving DecidableEq, Repr

/-- One projected file object. -/
structure File where
  object : Nat
  content : Content
deriving DecidableEq, Repr

def projectEntry (segmentsMap : Finset SegmentId) (entry : Entry) : Content :=
  match entry.kind with
  | EntryKind.disk path =>
      { data := FileData.null
        stat := entry.stat
        metadata := entry.metadata
        scriptOptions := entry.scriptOptions
        path := path }
  | EntryKind.shared segmentId offset length =>
      { data :=
          if length = 0 then FileData.empty
          else
            FileData.view (if segmentId ∈ segmentsMap then some segmentId else none)
              offset length
        stat := entry.stat
        metadata := entry.metadata
        scriptOptions := entry.scriptOptions
        path := none }

/-- The projection of an entry in a thread that knows its segment. -/
def Entry.view (entry : Entry) : Content :=
  match entry.kind with
  | EntryKind.disk path =>
      { data := FileData.null
        stat := entry.stat
        metadata := entry.metadata
        scriptOptions := entry.scriptOptions
        path := path }
  | EntryKind.shared segmentId offset length =>
      { data := if length = 0 then FileData.empty
          else FileData.view (some segmentId) offset length
        stat := entry.stat
        metadata := entry.metadata
        scriptOptions := entry.scriptOptions
        path := none }

def Content.extent? (content : Content) : Option Extent :=
  match content.data with
  | FileData.view (some segmentId) offset length => some ⟨segmentId, offset, length⟩
  | _ => none

theorem projectEntry_eq_view {segmentsMap : Finset SegmentId} {entry : Entry}
    (h : forall e, entry.extent? = some e -> e.segmentId ∈ segmentsMap) :
    projectEntry segmentsMap entry = entry.view := by
  unfold projectEntry Entry.view
  cases hkind : entry.kind with
  | disk path => rfl
  | shared segmentId offset length =>
      by_cases hzero : length = 0
      · simp [hzero]
      · have hext : entry.extent? = some ⟨segmentId, offset, length⟩ := by
          unfold Entry.extent?
          rw [hkind]
          exact if_pos (Nat.pos_of_ne_zero hzero)
        have hmem : segmentId ∈ segmentsMap := h _ hext
        simp [hzero, hmem]

theorem extent_view (entry : Entry) : entry.view.extent? = entry.extent? := by
  unfold Entry.view Entry.extent? Content.extent?
  cases entry.kind with
  | disk path => rfl
  | shared segmentId offset length =>
      by_cases hzero : length = 0
      · simp [hzero]
      · simp [hzero, Nat.pos_of_ne_zero hzero]

/-!
# Pins
-/

/-- {lit}`held` records which of the release closures handed out by
{lit}`acquire` were not called yet. -/
structure Pins where
  counts : OrderedMap File Nat
  retired : OrderedMap File RetireId
  held : OrderedMap ConsumerId File

namespace Pins

def new : Pins :=
  { counts := OrderedMap.empty
    retired := OrderedMap.empty
    held := OrderedMap.empty }

def acquire (p : Pins) (consumer : ConsumerId) (file : File) : Pins :=
  { p with
    counts := p.counts.set file ((p.counts.get file).getD 0 + 1)
    held := p.held.set consumer file }

/-- The id to release, once the last consumer of a retired file is done. -/
def drop (p : Pins) (file : File) : Pins × Option RetireId :=
  match p.counts.get file with
  | none => (p, none)
  | some count =>
      if 1 < count then ({ p with counts := p.counts.set file (count - 1) }, none)
      else
        match p.retired.get file with
        | none => ({ p with counts := p.counts.delete file }, none)
        | some id =>
            ({ p with
              counts := p.counts.delete file
              retired := p.retired.delete file }, some id)

/-- Calling the closure of {lit}`consumer`; only its first call drops. -/
def releaseHandle (p : Pins) (consumer : ConsumerId) : Pins × Option RetireId :=
  match p.held.get consumer with
  | none => (p, none)
  | some file => drop { p with held := p.held.delete consumer } file

def retain (p : Pins) (file : Option File) (id : RetireId) : Pins × Bool :=
  match file with
  | none => (p, false)
  | some file =>
      if p.counts.has file then ({ p with retired := p.retired.set file id }, true)
      else (p, false)

/-- How many closures of {lit}`file` are still held. -/
def consumers (p : Pins) (file : File) : Nat :=
  p.held.total (fun f => if f = file then 1 else 0)

structure Sound (p : Pins) : Prop where
  counts : forall file, (p.counts.get file).getD 0 = p.consumers file
  pos : forall file, p.counts.get file ≠ some 0
  retired : forall {file id}, p.retired.get file = some id ->
    p.counts.has file = true

theorem sound_new : new.Sound where
  counts := fun _ => rfl
  pos := fun _ h => by cases h
  retired := fun h => by cases h

/-- A file is counted exactly when some consumer holds it. -/
theorem Sound.has_iff {p : Pins} (h : p.Sound) {file : File} :
    p.counts.has file = true <-> 0 < p.consumers file := by
  rw [← h.counts file, OrderedMap.has_iff]
  cases hget : p.counts.get file with
  | none => simp
  | some count =>
      have hne : count ≠ 0 := fun h0 => h.pos file (by rw [hget, h0])
      simp [Nat.pos_of_ne_zero hne]

theorem Sound.held_counted {p : Pins} (h : p.Sound) {consumer : ConsumerId}
    {file : File} (hheld : p.held.get consumer = some file) :
    p.counts.has file = true := by
  rw [h.has_iff]
  have hdelete := OrderedMap.total_delete p.held consumer (fun f => if f = file then 1 else 0)
  rw [hheld, Option.elim_some, if_pos rfl] at hdelete
  unfold consumers
  omega

theorem Sound.counts_none {p : Pins} (h : p.Sound) (hheld : p.held.size = 0)
    (file : File) : p.counts.get file = none := by
  have hzero : p.consumers file = 0 := by
    unfold consumers OrderedMap.total
    rw [show p.held.entries = [] from List.eq_nil_of_length_eq_zero hheld]
    rfl
  cases hget : p.counts.get file with
  | none => rfl
  | some count =>
      have hhas := h.has_iff.mp (OrderedMap.has_iff.mpr ⟨count, hget⟩)
      omega

theorem sound_acquire {p : Pins} (h : p.Sound) {consumer : ConsumerId}
    (hnew : p.held.get consumer = none) (file : File) :
    (p.acquire consumer file).Sound where
  counts := by
    intro f
    show ((p.counts.set file _).get f).getD 0 =
      (p.held.set consumer file).total (fun g => if g = f then 1 else 0)
    rw [OrderedMap.total_set_new hnew, OrderedMap.get_set]
    have hold := h.counts f
    unfold consumers at hold
    by_cases hf : f = file
    · subst hf
      simp only [if_true, Option.getD_some]
      omega
    · rw [if_neg hf, if_neg (fun heq => hf heq.symm)]
      omega
  pos := by
    intro f hf
    have hf : (p.counts.set file ((p.counts.get file).getD 0 + 1)).get f = some 0 := hf
    rw [OrderedMap.get_set] at hf
    by_cases heq : f = file
    · rw [if_pos heq] at hf
      cases hf
    · rw [if_neg heq] at hf
      exact h.pos f hf
  retired := by
    intro f id hf
    rcases OrderedMap.has_iff.mp (h.retired hf) with ⟨count, hcount⟩
    show (p.counts.set file _).has f = true
    rw [OrderedMap.has_iff, OrderedMap.get_set]
    by_cases heq : f = file
    · rw [if_pos heq]
      exact ⟨_, rfl⟩
    · rw [if_neg heq]
      exact ⟨count, hcount⟩

/-- What calling a release closure does. -/
structure HandleSpec (p p' : Pins) (released : Option RetireId) : Prop where
  sound : p'.Sound
  counts : forall {file}, p'.counts.has file = true -> p.counts.has file = true
  kept : released = none -> p'.retired = p.retired
  released : forall id, released = some id -> exists file,
    p.retired.get file = some id ∧ p'.counts.has file = false ∧
      p'.retired = p.retired.delete file

/-- A pin record whose count of {lit}`file` is one ahead of its consumers. -/
structure OneAhead (p : Pins) (file : File) : Prop where
  counts : forall f,
    (p.counts.get f).getD 0 = p.consumers f + if f = file then 1 else 0
  pos : forall f, p.counts.get f ≠ some 0
  retired : forall {f id}, p.retired.get f = some id -> p.counts.has f = true

theorem OneAhead.sound_set {p : Pins} {file : File} (h : p.OneAhead file)
    {count : Nat} (hcount : p.counts.get file = some count) (hmany : 1 < count) :
    ({ p with counts := p.counts.set file (count - 1) } : Pins).Sound where
  counts := by
    intro f
    show ((p.counts.set file (count - 1)).get f).getD 0 = p.consumers f
    have hold := h.counts f
    rw [OrderedMap.get_set]
    by_cases hf : f = file
    · rw [hf, hcount, if_pos rfl, Option.getD_some] at hold
      rw [if_pos hf, Option.getD_some, hf]
      omega
    · rw [if_neg hf] at hold ⊢
      exact hold
  pos := by
    intro f hf
    have hf : (p.counts.set file (count - 1)).get f = some 0 := hf
    rw [OrderedMap.get_set] at hf
    by_cases heq : f = file
    · rw [if_pos heq] at hf
      have hzero := Option.some.inj hf
      omega
    · rw [if_neg heq] at hf
      exact h.pos f hf
  retired := by
    intro f id hf
    rcases OrderedMap.has_iff.mp (h.retired hf) with ⟨n, hn⟩
    show (p.counts.set file (count - 1)).has f = true
    rw [OrderedMap.has_iff, OrderedMap.get_set]
    by_cases heq : f = file
    · rw [if_pos heq]
      exact ⟨_, rfl⟩
    · rw [if_neg heq]
      exact ⟨n, hn⟩

theorem OneAhead.sound_delete {p : Pins} {file : File} (h : p.OneAhead file)
    {count : Nat} (hcount : p.counts.get file = some count) (hlast : ¬ 1 < count)
    {retired : OrderedMap File RetireId}
    (hretired : forall {f id}, retired.get f = some id ->
      f ≠ file ∧ p.retired.get f = some id) :
    ({ p with counts := p.counts.delete file, retired := retired } : Pins).Sound where
  counts := by
    intro f
    show ((p.counts.delete file).get f).getD 0 = p.consumers f
    have hold := h.counts f
    rw [OrderedMap.get_delete]
    by_cases hf : f = file
    · rw [hf, hcount, if_pos rfl, Option.getD_some] at hold
      rw [if_pos hf, Option.getD_none, hf]
      omega
    · rw [if_neg hf] at hold ⊢
      exact hold
  pos := by
    intro f hf
    have hf : (p.counts.delete file).get f = some 0 := hf
    rw [OrderedMap.get_delete] at hf
    by_cases heq : f = file
    · rw [if_pos heq] at hf
      cases hf
    · rw [if_neg heq] at hf
      exact h.pos f hf
  retired := by
    intro f id hf
    rcases hretired hf with ⟨hne, hold⟩
    rcases OrderedMap.has_iff.mp (h.retired hold) with ⟨n, hn⟩
    show (p.counts.delete file).has f = true
    rw [OrderedMap.has_iff, OrderedMap.get_delete_ne _ hne]
    exact ⟨n, hn⟩

theorem has_of_has_set {counts : OrderedMap File Nat} {file f : File} {count n : Nat}
    (hcount : counts.get file = some n)
    (h : (counts.set file count).has f = true) : counts.has f = true := by
  rw [OrderedMap.has_iff, OrderedMap.get_set] at h
  rw [OrderedMap.has_iff]
  by_cases hf : f = file
  · exact ⟨n, hf ▸ hcount⟩
  · rw [if_neg hf] at h
    exact h

theorem has_of_has_delete {counts : OrderedMap File Nat} {file f : File}
    (h : (counts.delete file).has f = true) : counts.has f = true := by
  rw [OrderedMap.has_iff, OrderedMap.get_delete] at h
  rw [OrderedMap.has_iff]
  by_cases hf : f = file
  · rw [if_pos hf] at h
    rcases h with ⟨_, hnone⟩
    cases hnone
  · rw [if_neg hf] at h
    exact h

theorem OneAhead.drop_spec {p : Pins} {file : File} (h : p.OneAhead file) :
    HandleSpec p (p.drop file).1 (p.drop file).2 := by
  have hcounted := h.counts file
  rw [if_pos rfl] at hcounted
  unfold drop
  cases hcount : p.counts.get file with
  | none =>
      rw [hcount, Option.getD_none] at hcounted
      omega
  | some count =>
      by_cases hmany : 1 < count
      · simp only [if_pos hmany]
        exact
          { sound := h.sound_set hcount hmany
            counts := has_of_has_set hcount
            kept := fun _ => rfl
            released := fun id hid => by cases hid }
      · simp only [if_neg hmany]
        cases hid : p.retired.get file with
        | none =>
            refine
              { sound := h.sound_delete hcount hmany ?_
                counts := has_of_has_delete
                kept := fun _ => rfl
                released := fun id hid => by cases hid }
            intro f id hf
            refine ⟨?_, hf⟩
            intro heq
            rw [heq, hid] at hf
            cases hf
        | some id =>
            refine
              { sound := h.sound_delete hcount hmany ?_
                counts := has_of_has_delete
                kept := fun hnone => by cases hnone
                released := fun i hi => ⟨file, hid.trans hi, by simp [OrderedMap.has], rfl⟩ }
            intro f i hf
            rw [OrderedMap.get_delete] at hf
            by_cases heq : f = file
            · rw [if_pos heq] at hf
              cases hf
            · rw [if_neg heq] at hf
              exact ⟨heq, hf⟩

theorem releaseHandle_spec {p : Pins} (h : p.Sound) (consumer : ConsumerId) :
    HandleSpec p (p.releaseHandle consumer).1 (p.releaseHandle consumer).2 := by
  unfold releaseHandle
  cases hheld : p.held.get consumer with
  | none =>
      exact
        { sound := h
          counts := id
          kept := fun _ => rfl
          released := fun id hid => by cases hid }
  | some file =>
      have hahead : ({ p with held := p.held.delete consumer } : Pins).OneAhead file :=
        { counts := by
            intro f
            have hdelete := OrderedMap.total_delete p.held consumer
              (fun g => if g = f then 1 else 0)
            rw [hheld, Option.elim_some] at hdelete
            show (p.counts.get f).getD 0 =
              (p.held.delete consumer).total (fun g => if g = f then 1 else 0) + _
            rw [h.counts f]
            unfold consumers
            rw [← hdelete]
            simp only [eq_comm]
          pos := h.pos
          retired := h.retired }
      have hdrop := hahead.drop_spec
      exact
        { sound := hdrop.sound
          counts := hdrop.counts
          kept := hdrop.kept
          released := hdrop.released }

theorem retain_none (p : Pins) (id : RetireId) : p.retain none id = (p, false) := rfl

theorem retain_free {p : Pins} {file : File} (h : p.counts.has file = false)
    (id : RetireId) : p.retain (some file) id = (p, false) := by
  unfold retain
  simp [h]

theorem retain_pinned {p : Pins} {file : File} (h : p.counts.has file = true)
    (id : RetireId) :
    p.retain (some file) id = ({ p with retired := p.retired.set file id }, true) := by
  unfold retain
  simp [h]

end Pins
end SharedMemoryFs
