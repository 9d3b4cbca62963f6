import SharedMemoryFs.Streams.Session

/-!
# What a stream delivers and how long it holds it

The invariant of a session: what it calls on the kernel are steps of the system, a
stream holds its pin until it is done, and every closure drops once.  From it, the
bytes behind a stream stay what they were at its creation, and each read takes the
next chunk of them.
-/

namespace SharedMemoryFs

open Foundation FilesystemCache

/-!
# One call on the kernel
-/

theorem Pins.drop_held (p : Pins) (file : File) : (p.drop file).1.held = p.held := by
  unfold drop
  cases p.counts.get file with
  | none => rfl
  | some count =>
      simp only
      split_ifs
      · rfl
      · cases p.retired.get file <;> rfl

theorem Pins.releaseHandle_held (p : Pins) (consumer other : ConsumerId) :
    (p.releaseHandle consumer).1.held.get other =
      if other = consumer then none else p.held.get other := by
  unfold releaseHandle
  cases hheld : p.held.get consumer with
  | none =>
      simp only
      split_ifs with heq
      · rw [heq, hheld]
      · rfl
  | some file =>
      simp only
      rw [drop_held]
      exact OrderedMap.get_delete _ _ _

/-- Once nothing is counted, a closure only remembers that it was called. -/
theorem Pins.releaseHandle_closed {p : Pins} (h : p.counts = OrderedMap.empty)
    (hretired : p.retired = OrderedMap.empty) (consumer : ConsumerId) :
    (p.releaseHandle consumer).1.counts = OrderedMap.empty ∧
      (p.releaseHandle consumer).1.retired = OrderedMap.empty := by
  unfold releaseHandle
  cases p.held.get consumer with
  | none => exact ⟨h, hretired⟩
  | some file =>
      unfold drop
      simp only [h, OrderedMap.get_empty]
      exact ⟨trivial, hretired⟩

namespace VfsKernel

variable {k : VfsKernel} {who : Holder} {t : Thread}

theorem thread?_link {id : LinkId} (h : k.thread? (Holder.link id) = some t) :
    exists link, k.links.get id = some link ∧ link.worker = Worker.attached t := by
  rcases Option.bind_eq_some_iff.mp h with ⟨link, hget, hthread⟩
  refine ⟨link, hget, ?_⟩
  cases hworker : link.worker with
  | attached attached =>
      rw [hworker] at hthread
      cases hthread
      rfl
  | handed snapshot =>
      rw [hworker] at hthread
      cases hthread
  | exited =>
      rw [hworker] at hthread
      cases hthread

theorem thread?_setLink {id : LinkId} {link : Link} :
    (k.setLink id link).thread? (Holder.link id) = link.worker.thread? := by
  show ((k.links.set id link).get id).bind _ = _
  rw [OrderedMap.get_set_self, Option.bind_some]

theorem acquire_thread (h : k.thread? who = some t) (consumer : ConsumerId) (slot : Slot) :
    (k.acquire who consumer slot).thread? who = some (t.acquire consumer slot) := by
  cases who with
  | main =>
      cases h
      rfl
  | link id =>
      rcases thread?_link h with ⟨link, hget, hworker⟩
      unfold acquire
      simp only [hget, hworker]
      exact thread?_setLink

theorem acquire_step {fileExt : Key -> Ext} (h : k.thread? who = some t) {consumer : ConsumerId}
    (hnew : t.pins.held.get consumer = none) (slot : Slot) :
    NoisyStep fileExt k (k.acquire who consumer slot) := by
  cases who with
  | main =>
      cases h
      exact NoisyStep.step (Step.acquireMain consumer slot hnew)
  | link id =>
      rcases thread?_link h with ⟨link, hget, hworker⟩
      unfold acquire
      simp only [hget, hworker]
      exact NoisyStep.step (Step.acquireWorker id link t consumer slot hget hworker hnew)

theorem release_step {fileExt : Key -> Ext} (h : k.thread? who = some t)
    (consumer : ConsumerId) : NoisyStep fileExt k (k.release who consumer) := by
  cases who with
  | main => exact NoisyStep.step (Step.releaseMain consumer)
  | link id =>
      rcases thread?_link h with ⟨link, hget, hworker⟩
      unfold release
      simp only [hget, hworker]
      exact NoisyStep.step (Step.releaseWorker id link t consumer hget hworker)

theorem release_held (hk : k.Sound 0) (h : k.thread? who = some t) (consumer : ConsumerId) :
    exists t', (k.release who consumer).thread? who = some t' ∧
      forall other, t'.pins.held.get other =
        if other = consumer then none else t.pins.held.get other := by
  have hthread : forall other, (t.release consumer).1.pins.held.get other =
      if other = consumer then none else t.pins.held.get other :=
    fun other => Pins.releaseHandle_held t.pins consumer other
  cases who with
  | main =>
      cases h
      refine ⟨(k.releaseMain consumer).main, rfl, ?_⟩
      rcases releaseMain_cases k consumer with ⟨_, heq⟩ | ⟨id, ids, hid, heq⟩
      · rw [heq]
        exact hthread
      · have hheld := (settle_steady (releaseMain_handled hk hid) ids).kept.held
        rw [← heq] at hheld
        intro other
        have hsame : (k.releaseMain consumer).main.pins.held =
            (k.main.release consumer).1.pins.held := hheld
        rw [hsame]
        exact hthread other
  | link id =>
      rcases thread?_link h with ⟨link, hget, hworker⟩
      refine ⟨(t.release consumer).1, ?_, hthread⟩
      unfold release
      simp only [hget, hworker]
      exact thread?_setLink

theorem leave_step {fileExt : Key -> Ext} (h : NoisyReachable fileExt k) (who : Holder) :
    NoisyReachable fileExt (k.leave who) := by
  cases who with
  | main => exact h
  | link id =>
      unfold leave
      cases hget : k.links.get id with
      | none =>
          simp only [hget]
          exact h
      | some link =>
          simp only [hget]
          exact h.step (NoisyStep.step (Step.exit id link hget))

end VfsKernel

/-!
# The invariant of a session
-/

namespace Session

variable {fileExt : Key -> Ext} {who : Holder} {s s' : Session}

/-- What every call keeps, between the parts of one call as well. -/
structure Based (fileExt : Key -> Ext) (who : Holder) (s : Session) : Prop where
  kernel : NoisyReachable fileExt s.kernel
  alive : s.closed = none -> exists t, s.kernel.thread? who = some t
  closed : forall pins, s.closed = some pins ->
    pins.counts = OrderedMap.empty ∧ pins.retired = OrderedMap.empty

/-- What calling the closure of {lit}`consumer` does. -/
structure Frees (fileExt : Key -> Ext) (who : Holder) (consumer : ConsumerId)
    (s s' : Session) : Prop where
  based : s'.Based fileExt who
  streams : s'.streams = s.streams
  next : s'.next = s.next
  shut : s'.closed.isSome = s.closed.isSome
  holds : forall other, s'.holds who other =
    if other = consumer then none else s.holds who other
  drops : s'.drops = if (s.holds who consumer).isSome then s.drops ++ [consumer] else s.drops
  bytes : forall other file, s'.closed = none -> s'.holds who other = some file ->
    file.bytes s'.kernel.cache.mem = file.bytes s.kernel.cache.mem

theorem holds_open {t : Thread} (hopen : s.closed = none) (ht : s.kernel.thread? who = some t)
    (consumer : ConsumerId) : s.holds who consumer = t.pins.held.get consumer := by
  unfold holds pins
  rw [hopen]
  simp only [ht, Option.map_some, Option.getD_some]

theorem holds_closed {pins : Pins} (hclosed : s.closed = some pins) (consumer : ConsumerId) :
    s.holds who consumer = pins.held.get consumer := by
  unfold holds Session.pins
  rw [hclosed]

/-- What is held after a step of the system reads as it did before. -/
theorem bytes_of_step {k' : VfsKernel} {t' : Thread} (hk : NoisyReachable fileExt s.kernel)
    (hstep : NoisyStep fileExt s.kernel k') (ht : k'.thread? who = some t')
    {consumer : ConsumerId} {file : File} (hheld : t'.pins.held.get consumer = some file) :
    file.bytes k'.cache.mem = file.bytes s.kernel.cache.mem := by
  unfold File.bytes
  cases he : file.content.extent? with
  | none => rfl
  | some e => exact VfsKernel.noisyStep_reads hk.sound hstep he ⟨t', ht, hheld⟩

theorem releaseHandle_frees (h : s.Based fileExt who) (consumer : ConsumerId) :
    Frees fileExt who consumer s (s.releaseHandle who consumer) := by
  unfold releaseHandle
  cases hclosed : s.closed with
  | some pins =>
      simp only
      rcases h.closed pins hclosed with ⟨hcounts, hretired⟩
      refine
        { based :=
            { kernel := h.kernel
              alive := fun hopen => by cases hopen
              closed := ?_ }
          streams := rfl
          next := rfl
          shut := by rw [hclosed]; rfl
          holds := ?_
          drops := rfl
          bytes := fun _ _ hopen => by cases hopen }
      · intro pins' hpins'
        cases hpins'
        exact Pins.releaseHandle_closed hcounts hretired consumer
      · intro other
        rw [holds_closed hclosed other]
        exact Pins.releaseHandle_held pins consumer other
  | none =>
      simp only
      rcases h.alive hclosed with ⟨t, ht⟩
      rcases VfsKernel.release_held h.kernel.sound ht consumer with ⟨t', ht', hheld⟩
      have hstep : NoisyStep fileExt s.kernel (s.kernel.release who consumer) :=
        VfsKernel.release_step ht consumer
      have hholds : forall other,
          ({ s with
            kernel := s.kernel.release who consumer
            closed := none
            drops := if (s.holds who consumer).isSome then s.drops ++ [consumer]
              else s.drops } : Session).holds who other = t'.pins.held.get other := by
        intro other
        refine holds_open rfl ?_ other
        exact ht'
      exact
        { based :=
            { kernel := h.kernel.step hstep
              alive := fun _ => ⟨t', ht'⟩
              closed := fun pins hpins => by cases hpins }
          streams := rfl
          next := rfl
          shut := by rw [hclosed]
          holds := by
            intro other
            rw [hholds, hheld, holds_open hclosed ht]
          drops := rfl
          bytes := by
            intro other file _ hfile
            rw [hholds] at hfile
            exact bytes_of_step h.kernel hstep ht' hfile }

/-- A stream holds its pin until it is done, a closure that was called is never called
again, and consumers are numbered as they come. -/
structure Sound (fileExt : Key -> Ext) (who : Holder) (s : Session) : Prop where
  based : s.Based fileExt who
  fresh : forall {consumer file}, s.holds who consumer = some file -> consumer < s.next
  below : forall {consumer stream}, s.streams.get consumer = some stream -> consumer < s.next
  drops : forall consumer, s.drops.count consumer =
    if consumer < s.next ∧ s.holds who consumer = none then 1 else 0
  streams : forall {consumer stream}, s.streams.get consumer = some stream ->
    s.holds who consumer = if stream.done then none else some stream.file
  released : forall {consumer stream}, s.streams.get consumer = some stream ->
    stream.released = true -> stream.destroyed = true

/-- What a stream is stays; it may have been destroyed or released meanwhile. -/
structure Evolves (stream stream' : VfsReadStream) : Prop where
  same : { stream' with destroyed := stream.destroyed, released := stream.released } = stream
  destroyed : stream.destroyed = true -> stream'.destroyed = true
  released : stream.released = true -> stream'.released = true

theorem Evolves.refl (stream : VfsReadStream) : Evolves stream stream := ⟨rfl, id, id⟩

theorem Evolves.trans {stream stream' stream'' : VfsReadStream} (h : Evolves stream stream')
    (h' : Evolves stream' stream'') : Evolves stream stream'' where
  same := by
    have hfirst := h.same
    rw [← h'.same] at hfirst
    exact hfirst
  destroyed := fun hd => h'.destroyed (h.destroyed hd)
  released := fun hr => h'.released (h.released hr)

theorem Evolves.fields {stream stream' : VfsReadStream} (h : Evolves stream stream') :
    stream'.file = stream.file ∧ stream'.range = stream.range ∧
      stream'.highWaterMark = stream.highWaterMark ∧ stream'.borrowed = stream.borrowed := by
  rw [← h.same]
  exact ⟨rfl, rfl, rfl, rfl⟩

theorem Evolves.delivers {stream stream' : VfsReadStream} (h : Evolves stream stream')
    {version : Bytes} (hdelivers : stream.Delivers version) : stream'.Delivers version := by
  rw [← h.same] at hdelivers
  exact ⟨hdelivers.within, hdelivers.mark, hdelivers.low, hdelivers.high, hdelivers.pushed,
    hdelivers.chunks, hdelivers.views, hdelivers.owned, hdelivers.ended⟩

theorem Evolves.done {stream stream' : VfsReadStream} (h : Evolves stream stream')
    (hdone : stream.done = true) : stream'.done = true := by
  unfold VfsReadStream.done at hdone ⊢
  rw [h.fields.2.2.2]
  cases hborrowed : stream.borrowed with
  | true =>
      rw [hborrowed] at hdone
      exact h.released hdone
  | false =>
      rw [hborrowed] at hdone
      exact h.destroyed hdone

/-- What every call but {lit}`read` keeps of the consumers there were. -/
structure Turn (fileExt : Key -> Ext) (who : Holder) (s s' : Session) : Prop where
  sound : s'.Sound fileExt who
  next : s.next ≤ s'.next
  shut : s.closed.isSome = true -> s'.closed.isSome = true
  keeps : forall {consumer file}, consumer < s.next -> s'.holds who consumer = some file ->
    s.holds who consumer = some file
  bytes : forall {consumer file}, consumer < s.next -> s'.closed = none ->
    s'.holds who consumer = some file ->
    file.bytes s'.kernel.cache.mem = file.bytes s.kernel.cache.mem
  streams : forall {consumer stream}, s.streams.get consumer = some stream ->
    exists stream', s'.streams.get consumer = some stream' ∧ Evolves stream stream'
  back : forall {consumer stream'}, consumer < s.next ->
    s'.streams.get consumer = some stream' ->
    exists stream, s.streams.get consumer = some stream

theorem Turn.refl (h : s.Sound fileExt who) : Turn fileExt who s s where
  sound := h
  next := le_rfl
  shut := id
  keeps := fun _ h => h
  bytes := fun _ _ _ => rfl
  streams := fun hget => ⟨_, hget, Evolves.refl _⟩
  back := fun _ hget => ⟨_, hget⟩

theorem Turn.trans {s'' : Session} (h : Turn fileExt who s s') (h' : Turn fileExt who s' s'') :
    Turn fileExt who s s'' where
  sound := h'.sound
  next := h.next.trans h'.next
  shut := fun hs => h'.shut (h.shut hs)
  keeps := fun hlt hholds => h.keeps hlt (h'.keeps (lt_of_lt_of_le hlt h.next) hholds)
  bytes := by
    intro consumer file hlt hopen hholds
    have hlt' := lt_of_lt_of_le hlt h.next
    have hopen' : s'.closed = none := by
      cases hclosed : s'.closed with
      | none => rfl
      | some pins =>
          have hshut := h'.shut (by rw [hclosed]; rfl)
          rw [hopen] at hshut
          cases hshut
    exact (h'.bytes hlt' hopen hholds).trans (h.bytes hlt hopen' (h'.keeps hlt' hholds))
  streams := by
    intro consumer stream hget
    rcases h.streams hget with ⟨stream', hget', hevolves⟩
    rcases h'.streams hget' with ⟨stream'', hget'', hevolves'⟩
    exact ⟨stream'', hget'', hevolves.trans hevolves'⟩
  back := by
    intro consumer stream'' hlt hget
    rcases h'.back (lt_of_lt_of_le hlt h.next) hget with ⟨stream', hget'⟩
    exact h.back hlt hget'

/-!
# One lemma for each part of a call
-/

/-- The closure of a consumer is called while its stream, if it has one, ends. -/
theorem freed_turn {s₂ : Session} {consumer : ConsumerId}
    {streams : OrderedMap ConsumerId VfsReadStream}
    (streams' : OrderedMap ConsumerId VfsReadStream) (h : s.Sound fileExt who)
    (hfrees : Frees fileExt who consumer { s with streams := streams } s₂)
    (hforth : forall {other stream}, s.streams.get other = some stream ->
      exists stream', streams'.get other = some stream' ∧ Evolves stream stream')
    (hback : forall {other stream'}, streams'.get other = some stream' ->
      (stream'.released = true -> stream'.destroyed = true) ∧
      exists stream, s.streams.get other = some stream ∧
        stream'.done = if other = consumer then true else stream.done) :
    Turn fileExt who s { s₂ with streams := streams' } := by
  have hholds : forall other, ({ s₂ with streams := streams' } : Session).holds who other =
      if other = consumer then none else s.holds who other := hfrees.holds
  have hnext : s₂.next = s.next := hfrees.next
  refine
    { sound :=
        { based := ⟨hfrees.based.kernel, hfrees.based.alive, hfrees.based.closed⟩
          fresh := ?_
          below := ?_
          drops := ?_
          streams := ?_
          released := fun hget => (hback hget).1 }
      next := le_of_eq hnext.symm
      shut := ?_
      keeps := ?_
      bytes := ?_
      streams := hforth
      back := ?_ }
  · intro other file hother
    rw [hholds] at hother
    show other < s₂.next
    rw [hnext]
    split_ifs at hother
    exact h.fresh hother
  · intro other stream' hget
    rcases (hback hget).2 with ⟨stream, hold, _⟩
    show other < s₂.next
    rw [hnext]
    exact h.below hold
  · intro other
    rw [hholds]
    show s₂.drops.count other = if other < s₂.next ∧ _ then 1 else 0
    rw [hfrees.drops, hnext]
    show (if (s.holds who consumer).isSome then s.drops ++ [consumer] else s.drops).count other = _
    have hold := h.drops other
    cases hheld : s.holds who consumer with
    | none =>
        rw [Option.isSome_none, if_neg Bool.false_ne_true, hold]
        by_cases heq : other = consumer
        · rw [if_pos heq, heq, hheld]
        · rw [if_neg heq]
    | some file =>
        rw [Option.isSome_some, if_pos rfl, List.count_append, hold]
        by_cases heq : other = consumer
        · rw [if_pos heq, heq, hheld, List.count_singleton_self]
          have hfresh := h.fresh hheld
          simp [hfresh]
        · rw [if_neg heq, List.count_singleton]
          have hne : (consumer == other) = false := by simpa using Ne.symm heq
          rw [hne]
          rfl
  · intro other stream' hget
    rcases (hback hget).2 with ⟨stream, hold, hdone⟩
    rw [hholds, hdone]
    rcases hforth hold with ⟨found, hfound, hevolves⟩
    rw [hget] at hfound
    have hfile : stream'.file = stream.file := by
      rw [Option.some.inj hfound]
      exact hevolves.fields.1
    rw [hfile]
    by_cases heq : other = consumer
    · rw [if_pos heq, if_pos heq, if_pos rfl]
    · rw [if_neg heq, if_neg heq]
      exact h.streams hold
  · intro hshut
    show s₂.closed.isSome = true
    rw [hfrees.shut]
    exact hshut
  · intro other file _ hother
    rw [hholds] at hother
    split_ifs at hother
    exact hother
  · intro other file _ hopen hother
    exact hfrees.bytes other file hopen hother
  · intro other stream' _ hget
    rcases (hback hget).2 with ⟨stream, hold, _⟩
    exact ⟨stream, hold⟩

theorem Sound.released_done {consumer : ConsumerId} {stream : VfsReadStream}
    (h : s.Sound fileExt who) (hget : s.streams.get consumer = some stream)
    (hdestroyed : stream.destroyed = false) : stream.released = false := by
  cases hreleased : stream.released with
  | false => rfl
  | true =>
      rw [h.released hget hreleased] at hdestroyed
      cases hdestroyed

/-- One stream changes, and with it at most what it is marked as. -/
theorem set_forth {streams : OrderedMap ConsumerId VfsReadStream} {consumer : ConsumerId}
    {old new : VfsReadStream} (hget : streams.get consumer = some old)
    (hevolves : Evolves old new) {other : ConsumerId} {stream : VfsReadStream}
    (hother : streams.get other = some stream) :
    exists stream', (streams.set consumer new).get other = some stream' ∧
      Evolves stream stream' := by
  rw [OrderedMap.get_set]
  by_cases heq : other = consumer
  · rw [if_pos heq]
    rw [heq, hget] at hother
    rw [← Option.some.inj hother]
    exact ⟨new, rfl, hevolves⟩
  · rw [if_neg heq]
    exact ⟨stream, hother, Evolves.refl stream⟩

theorem set_cases {streams : OrderedMap ConsumerId VfsReadStream} {consumer other : ConsumerId}
    {new stream' : VfsReadStream} (h : (streams.set consumer new).get other = some stream') :
    (other = consumer ∧ stream' = new) ∨
      (other ≠ consumer ∧ streams.get other = some stream') := by
  rw [OrderedMap.get_set] at h
  by_cases heq : other = consumer
  · rw [if_pos heq] at h
    exact Or.inl ⟨heq, (Option.some.inj h).symm⟩
  · rw [if_neg heq] at h
    exact Or.inr ⟨heq, h⟩

/-- A stream is marked, and its lease is none the wiser. -/
theorem marked_turn (h : s.Sound fileExt who) {consumer : ConsumerId}
    {old new : VfsReadStream} (hget : s.streams.get consumer = some old)
    (hevolves : Evolves old new) (hdone : new.done = old.done)
    (hreleased : new.released = true -> new.destroyed = true) :
    Turn fileExt who s { s with streams := s.streams.set consumer new } where
  sound :=
    { based := ⟨h.based.kernel, h.based.alive, h.based.closed⟩
      fresh := h.fresh
      below := by
        intro other stream' hother
        rcases set_cases hother with ⟨heq, _⟩ | ⟨_, hold⟩
        · rw [heq]
          exact h.below hget
        · exact h.below hold
      drops := h.drops
      streams := by
        intro other stream' hother
        rcases set_cases hother with ⟨heq, hnew⟩ | ⟨_, hold⟩
        · rw [heq, hnew, hdone, hevolves.fields.1]
          exact h.streams hget
        · exact h.streams hold
      released := by
        intro other stream' hother
        rcases set_cases hother with ⟨_, hnew⟩ | ⟨_, hold⟩
        · rw [hnew]
          exact hreleased
        · exact h.released hold }
  next := le_rfl
  shut := id
  keeps := fun _ hholds => hholds
  bytes := fun _ _ _ => rfl
  streams := fun hother => set_forth hget hevolves hother
  back := by
    intro other stream' _ hother
    rcases set_cases hother with ⟨heq, _⟩ | ⟨_, hold⟩
    · exact ⟨old, heq ▸ hget⟩
    · exact ⟨stream', hold⟩

theorem with_streams {streams : OrderedMap ConsumerId VfsReadStream}
    (h : s.streams = streams) : { s with streams := streams } = s := by
  subst h
  rfl

theorem destroy_turn (h : s.Sound fileExt who) (consumer : ConsumerId) :
    Turn fileExt who s (s.destroy who consumer) := by
  unfold destroy
  cases hget : s.streams.get consumer with
  | none => exact Turn.refl h
  | some stream =>
      simp only
      split_ifs with hdestroyed hborrowed
      · exact Turn.refl h
      · have hundestroyed : stream.destroyed = false := by simpa using hdestroyed
        refine marked_turn h hget ⟨rfl, fun _ => rfl, id⟩ ?_ (fun _ => rfl)
        unfold VfsReadStream.done
        simp only [hborrowed, if_true]
      · have hundestroyed : stream.destroyed = false := by simpa using hdestroyed
        have howned : stream.borrowed = false := by simpa using hborrowed
        have hevolves : Evolves stream { stream with destroyed := true } :=
          ⟨rfl, fun _ => rfl, id⟩
        let streams := s.streams.set consumer { stream with destroyed := true }
        have hbased : ({ s with streams := streams } : Session).Based fileExt who :=
          ⟨h.based.kernel, h.based.alive, h.based.closed⟩
        have hfrees := releaseHandle_frees hbased consumer
        have hturn := freed_turn streams h hfrees
          (fun hother => set_forth hget hevolves hother) (by
            intro other stream' hother
            rcases set_cases hother with ⟨heq, hnew⟩ | ⟨hne, hold⟩
            · rw [hnew, heq]
              refine ⟨fun _ => rfl, stream, hget, ?_⟩
              unfold VfsReadStream.done
              simp only [howned, Bool.false_eq_true, if_false, if_true]
            · exact ⟨h.released hold, stream', hold, by rw [if_neg hne]⟩)
        rw [with_streams hfrees.streams] at hturn
        exact hturn

theorem destroy_destroyed (h : s.Sound fileExt who) {consumer : ConsumerId}
    {stream' : VfsReadStream}
    (hget : (s.destroy who consumer).streams.get consumer = some stream') :
    stream'.destroyed = true := by
  unfold destroy at hget
  cases hold : s.streams.get consumer with
  | none =>
      simp only [hold] at hget
      cases hget
  | some stream =>
      simp only [hold] at hget
      split_ifs at hget with hdestroyed hborrowed
      · rw [hold] at hget
        rw [← Option.some.inj hget]
        exact hdestroyed
      · rw [OrderedMap.get_set_self] at hget
        rw [← Option.some.inj hget]
      · let streams := s.streams.set consumer { stream with destroyed := true }
        have hbased : ({ s with streams := streams } : Session).Based fileExt who :=
          ⟨h.based.kernel, h.based.alive, h.based.closed⟩
        have hfrees := releaseHandle_frees hbased consumer
        rw [hfrees.streams, OrderedMap.get_set_self] at hget
        rw [← Option.some.inj hget]

theorem release_turn (h : s.Sound fileExt who) (consumer : ConsumerId) :
    Turn fileExt who s (s.release who consumer) := by
  unfold release
  cases hget : s.streams.get consumer with
  | none => exact Turn.refl h
  | some stream =>
      simp only
      have hdestroy := destroy_turn h consumer
      have hstopped := hdestroy.sound
      refine hdestroy.trans ?_
      rcases hdestroy.streams hget with ⟨stopped, hstop, _⟩
      have hdestroyed := destroy_destroyed h hstop
      have hfrees := releaseHandle_frees hstopped.based consumer
      have hevolves : Evolves stopped { stopped with released := true } :=
        ⟨rfl, id, fun _ => rfl⟩
      have hmark : ((s.destroy who consumer).releaseHandle who consumer).markReleased consumer =
          { (s.destroy who consumer).releaseHandle who consumer with
            streams := (s.destroy who consumer).streams.set consumer
              { stopped with released := true } } := by
        unfold markReleased
        rw [hfrees.streams, hstop]
      rw [hmark]
      refine freed_turn _ hstopped hfrees
        (fun hother => set_forth hstop hevolves hother) ?_
      intro other stream' hother
      rcases set_cases hother with ⟨heq, hnew⟩ | ⟨hne, hold⟩
      · rw [hnew, heq]
        refine ⟨fun _ => hdestroyed, stopped, hstop, ?_⟩
        unfold VfsReadStream.done
        simp only [hdestroyed, if_true]
        split_ifs <;> rfl
      · exact ⟨hstopped.released hold, stream', hold, by rw [if_neg hne]⟩

/-- The closure of a view; a stream keeps its own to itself. -/
theorem endView_turn (h : s.Sound fileExt who) {consumer : ConsumerId}
    (hnone : s.streams.get consumer = none) :
    Turn fileExt who s (s.releaseHandle who consumer) := by
  have hfrees := releaseHandle_frees h.based consumer
  have hturn := freed_turn s.streams h hfrees
    (fun hother => ⟨_, hother, Evolves.refl _⟩) (by
      intro other stream' hother
      have hne : other ≠ consumer := by
        intro heq
        rw [heq, hnone] at hother
        cases hother
      exact ⟨h.released hother, stream', hother, by rw [if_neg hne]⟩)
  rw [with_streams hfrees.streams] at hturn
  exact hturn

theorem file_open {slot : Slot} {file : File} (h : s.file who slot = some file) :
    s.closed = none ∧ exists t, s.kernel.thread? who = some t ∧ t.files.get slot = some file := by
  unfold Session.file at h
  cases hclosed : s.closed with
  | some pins =>
      rw [hclosed] at h
      cases h
  | none =>
      rw [hclosed] at h
      rcases Option.bind_eq_some_iff.mp h with ⟨t, ht, hfile⟩
      exact ⟨rfl, t, ht, hfile⟩

theorem acquire_held {t : Thread} {consumer : ConsumerId} {slot : Slot} {file : File}
    (hfile : t.files.get slot = some file) :
    (t.acquire consumer slot).pins.held = t.pins.held.set consumer file := by
  unfold Thread.acquire
  rw [hfile]
  rfl

/-- A new consumer of a projected file. -/
theorem pin_turn (h : s.Sound fileExt who) {slot : Slot} {file : File}
    (hfile : s.file who slot = some file) :
    Turn fileExt who s (s.pin who slot) ∧
      (s.pin who slot).holds who s.next = some file ∧
      (s.pin who slot).closed = none ∧
      (s.pin who slot).kernel.cache.mem = s.kernel.cache.mem := by
  rcases file_open hfile with ⟨hopen, t, ht, hslot⟩
  have hnew : t.pins.held.get s.next = none := by
    cases hheld : t.pins.held.get s.next with
    | none => rfl
    | some other =>
        rw [← holds_open hopen ht] at hheld
        exact absurd (h.fresh hheld) (lt_irrefl _)
  have hthread := VfsKernel.acquire_thread ht s.next slot
  have hstep : NoisyStep fileExt s.kernel (s.kernel.acquire who s.next slot) :=
    VfsKernel.acquire_step ht hnew slot
  have hholds : forall other, (s.pin who slot).holds who other =
      if other = s.next then some file else s.holds who other := by
    intro other
    have hheld : (s.pin who slot).holds who other =
        (t.acquire s.next slot).pins.held.get other := by
      refine holds_open ?_ ?_ other
      · exact hopen
      · exact hthread
    rw [hheld, acquire_held hslot, holds_open hopen ht]
    exact OrderedMap.get_set _ _ _ _
  have hmem : (s.kernel.acquire who s.next slot).cache.mem = s.kernel.cache.mem := by
    cases who with
    | main => rfl
    | link id =>
        rcases VfsKernel.thread?_link ht with ⟨link, hget, hworker⟩
        unfold VfsKernel.acquire
        simp only [hget, hworker]
        rfl
  have hother : forall {consumer}, consumer < s.next ->
      (s.pin who slot).holds who consumer = s.holds who consumer := by
    intro consumer hlt
    rw [hholds, if_neg (Nat.ne_of_lt hlt)]
  refine ⟨?_, ?_, hopen, hmem⟩
  · refine
      { sound :=
          { based := ⟨h.based.kernel.step hstep, fun _ => ⟨_, hthread⟩, h.based.closed⟩
            fresh := ?_
            below := fun hget => (h.below hget).trans (Nat.lt_succ_self _)
            drops := ?_
            streams := ?_
            released := h.released }
        next := Nat.le_succ _
        shut := id
        keeps := ?_
        bytes := ?_
        streams := fun hget => ⟨_, hget, Evolves.refl _⟩
        back := fun _ hget => ⟨_, hget⟩ }
    · intro consumer found hfound
      rw [hholds] at hfound
      show consumer < s.next + 1
      split_ifs at hfound with heq
      · rw [heq]
        exact Nat.lt_succ_self _
      · exact (h.fresh hfound).trans (Nat.lt_succ_self _)
    · intro consumer
      show s.drops.count consumer = if consumer < s.next + 1 ∧ _ then 1 else 0
      rw [h.drops, hholds]
      by_cases heq : consumer = s.next
      · rw [if_pos heq]
        simp [heq]
      · rw [if_neg heq]
        have hiff : consumer < s.next <-> consumer < s.next + 1 :=
          ⟨Nat.lt_succ_of_lt, fun hlt => Nat.lt_of_le_of_ne (Nat.le_of_lt_succ hlt) heq⟩
        exact if_congr (and_congr_left' hiff) rfl rfl
    · intro consumer stream hget
      rw [hother (h.below hget)]
      exact h.streams hget
    · intro consumer found hlt hfound
      rw [hother hlt] at hfound
      exact hfound
    · intro consumer found _ _ _
      exact congrArg (fun mem => found.bytes mem) hmem
  · rw [hholds, if_pos rfl]

theorem readFileView_turn (h : s.Sound fileExt who) (slot : Slot) :
    Turn fileExt who s (s.readFileView who slot) := by
  unfold readFileView
  cases hfile : s.file who slot with
  | none => exact Turn.refl h
  | some file =>
      simp only
      split_ifs
      · exact Turn.refl h
      · exact (pin_turn h hfile).1

/-- A new stream over a file that was just pinned for it. -/
theorem open_turn (h : s.Sound fileExt who) {consumer : ConsumerId} {stream : VfsReadStream}
    (hlt : consumer < s.next) (hheld : s.holds who consumer = some stream.file) (hdone : stream.done = false)
    (hreleased : stream.released = false) :
    ({ s with streams := s.streams.set consumer stream } : Session).Sound fileExt who where
  based := ⟨h.based.kernel, h.based.alive, h.based.closed⟩
  fresh := h.fresh
  below := by
    intro other found hget
    rcases set_cases hget with ⟨heq, _⟩ | ⟨_, hold⟩
    · rw [heq]
      exact hlt
    · exact h.below hold
  drops := h.drops
  streams := by
    intro other found hget
    rcases set_cases hget with ⟨heq, hnew⟩ | ⟨_, hold⟩
    · rw [heq, hnew, hdone]
      exact hheld
    · exact h.streams hold
  released := by
    intro other found hget hfound
    rcases set_cases hget with ⟨_, hnew⟩ | ⟨_, hold⟩
    · rw [hnew, hreleased] at hfound
      cases hfound
    · exact h.released hold hfound

/-- A projected file has the bytes its length says. -/
theorem length_bytes (h : s.Based fileExt who) {slot : Slot} {file : File}
    (hfile : s.file who slot = some file) (mem : Memory) :
    (file.bytes mem).length = file.length := by
  rcases file_open hfile with ⟨_, t, ht, hslot⟩
  have hprojects : exists index, t.Projects index := by
    have hsound := h.kernel.sound
    cases who with
    | main =>
        cases ht
        exact ⟨_, hsound.main.projects⟩
    | link id =>
        rcases VfsKernel.thread?_link ht with ⟨link, hget, hworker⟩
        rcases (hsound.attached hget hworker).projects with ⟨index, _, hprojects⟩
        exact ⟨index, hprojects⟩
  rcases hprojects with ⟨index, hprojects⟩
  have hview := hprojects.files slot
  rw [hslot, Option.map_some] at hview
  rcases Option.map_eq_some_iff.mp hview.symm with ⟨entry, _, hentry⟩
  unfold File.bytes File.length
  rw [← hentry]
  unfold Entry.view Content.extent?
  cases entry.kind with
  | disk path => rfl
  | shared segmentId offset length =>
      by_cases hzero : length = 0
      · simp [hzero]
      · simp [hzero, readBytes]

/-- What {lit}`createReadStream` hands out, as it stands once the call returns. -/
structure Created (who : Holder) (zeroCopy : Bool) (slot : Slot) (options : StreamOptions)
    (s s' : Session) (consumer : ConsumerId) (file : File) (range : Range)
    (highWaterMark : Nat) (borrowed : Bool) : Prop where
  pinned : s.file who slot = some file
  inMemory : file.content.data ≠ FileData.null
  lends : borrowedOf zeroCopy options = Except.ok borrowed
  covers : rangeOf options file.length = Except.ok range
  marked : highWaterMarkOf options.highWaterMark = some highWaterMark
  numbered : consumer = s.next
  opened : exists stream, s'.streams.get consumer = some stream ∧
    Evolves (VfsReadStream.new file range highWaterMark
      (borrowed && decide (options.encoding = StreamEncoding.none))) stream
  kept : s'.closed = none -> s'.holds who consumer = some file ->
    file.bytes s'.kernel.cache.mem = file.bytes s.kernel.cache.mem

/-- The pinned file gets its stream. -/
theorem opened_turn (h : s.Sound fileExt who) {slot : Slot} {file : File}
    (hfile : s.file who slot = some file) (range : Range) (highWaterMark : Nat)
    (borrowed : Bool) :
    Turn fileExt who s { s.pin who slot with
      streams := (s.pin who slot).streams.set s.next
        (VfsReadStream.new file range highWaterMark borrowed) } := by
  rcases pin_turn h hfile with ⟨hturn, hheld, _, _⟩
  have hdone : (VfsReadStream.new file range highWaterMark borrowed).done = false := by
    cases borrowed <;> rfl
  exact
    { sound := open_turn hturn.sound (Nat.lt_succ_self _) hheld hdone rfl
      next := hturn.next
      shut := hturn.shut
      keeps := hturn.keeps
      bytes := hturn.bytes
      streams := by
        intro consumer stream hget
        have hne : consumer ≠ s.next := Nat.ne_of_lt (h.below hget)
        refine ⟨stream, ?_, Evolves.refl stream⟩
        exact (OrderedMap.get_set_ne _ _ hne).trans hget
      back := by
        intro consumer stream' hlt hget
        rcases set_cases hget with ⟨heq, _⟩ | ⟨_, hold⟩
        · exact absurd (heq ▸ hlt) (lt_irrefl _)
        · exact ⟨stream', hold⟩ }

/-- The two ways the call ends once the file is pinned. -/
theorem refused_turn (h : s.Sound fileExt who) {slot : Slot} {file : File}
    (hfile : s.file who slot = some file) :
    Turn fileExt who s ((s.pin who slot).releaseHandle who s.next) := by
  rcases pin_turn h hfile with ⟨hturn, _, _, _⟩
  refine hturn.trans (endView_turn hturn.sound ?_)
  cases hget : (s.pin who slot).streams.get s.next with
  | none => rfl
  | some stream => exact absurd (h.below hget) (lt_irrefl _)

theorem stream_turn (h : s.Sound fileExt who) (zeroCopy : Bool) {slot : Slot} {file : File}
    (hfile : s.file who slot = some file) (options : StreamOptions) :
    Turn fileExt who s (s.stream who zeroCopy slot file options).1 := by
  unfold stream
  cases borrowedOf zeroCopy options with
  | error error => exact Turn.refl h
  | ok borrowed =>
      simp only
      cases rangeOf options file.length with
      | error error => exact Turn.refl h
      | ok range =>
          simp only
          cases highWaterMarkOf options.highWaterMark with
          | none => exact refused_turn h hfile
          | some highWaterMark =>
              simp only
              have hopened := opened_turn h hfile range highWaterMark
                (borrowed && decide (options.encoding = StreamEncoding.none))
              split_ifs
              · exact refused_turn h hfile
              · exact hopened.trans (destroy_turn hopened.sound s.next)
              · exact hopened

theorem createReadStream_turn (h : s.Sound fileExt who) (zeroCopy : Bool) (slot : Slot)
    (options : StreamOptions) :
    Turn fileExt who s (s.createReadStream who zeroCopy slot options).1 := by
  unfold createReadStream
  cases hfile : s.file who slot with
  | none => exact Turn.refl h
  | some file =>
      simp only
      split_ifs
      · exact Turn.refl h
      · exact stream_turn h zeroCopy hfile options

theorem createReadStream_created (h : s.Sound fileExt who) {zeroCopy : Bool} {slot : Slot}
    {options : StreamOptions} {consumer : ConsumerId}
    (hcreate : s.createReadStream who zeroCopy slot options =
      (s', StreamResult.stream consumer)) :
    exists file range highWaterMark borrowed,
      Created who zeroCopy slot options s s' consumer file range highWaterMark borrowed := by
  unfold createReadStream at hcreate
  cases hfile : s.file who slot with
  | none =>
      rw [hfile] at hcreate
      cases hcreate
  | some file =>
      simp only [hfile] at hcreate
      by_cases hdisk : file.content.data = FileData.null
      · rw [if_pos hdisk] at hcreate
        cases hcreate
      rw [if_neg hdisk] at hcreate
      unfold stream at hcreate
      cases hborrowed : borrowedOf zeroCopy options with
      | error error =>
          rw [hborrowed] at hcreate
          cases hcreate
      | ok borrowed =>
          simp only [hborrowed] at hcreate
          cases hrange : rangeOf options file.length with
          | error error =>
              rw [hrange] at hcreate
              cases hcreate
          | ok range =>
              simp only [hrange] at hcreate
              cases hmark : highWaterMarkOf options.highWaterMark with
              | none =>
                  rw [hmark] at hcreate
                  cases hcreate
              | some highWaterMark =>
                  simp only [hmark] at hcreate
                  rcases pin_turn h hfile with ⟨hpin, _, hopen, hmem⟩
                  have hopened := opened_turn h hfile range highWaterMark
                    (borrowed && decide (options.encoding = StreamEncoding.none))
                  have hget := OrderedMap.get_set_self (s.pin who slot).streams s.next
                    (VfsReadStream.new file range highWaterMark
                      (borrowed && decide (options.encoding = StreamEncoding.none)))
                  split_ifs at hcreate with hrefused haborted
                  · cases hcreate
                  · cases hcreate
                    have hdestroy := destroy_turn hopened.sound s.next
                    refine ⟨file, range, highWaterMark, borrowed, hfile, hdisk, hborrowed,
                      hrange, hmark, rfl, hdestroy.streams hget, ?_⟩
                    intro hstill hheld
                    have hlt : s.next < (s.pin who slot).next := Nat.lt_succ_self _
                    exact (hdestroy.bytes hlt hstill hheld).trans (congrArg file.bytes hmem)
                  · cases hcreate
                    refine ⟨file, range, highWaterMark, borrowed, hfile, hdisk, hborrowed,
                      hrange, hmark, rfl, ⟨_, hget, Evolves.refl _⟩, ?_⟩
                    intro _ _
                    exact congrArg file.bytes hmem

theorem leave_bytes (k : VfsKernel) (who : Holder) :
    (k.leave who).cache.mem = k.cache.mem := by
  cases who with
  | main => rfl
  | link id =>
      unfold VfsKernel.leave
      simp only
      cases k.links.get id with
      | none => rfl
      | some link => rfl

/-- The pins are forgotten; the closers have yet to run. -/
theorem forget_turn (h : s.Sound fileExt who) :
    Turn fileExt who s
      { s with
        kernel := s.kernel.leave who
        closed := some (s.pins who).close } where
  sound :=
    { based :=
        { kernel := VfsKernel.leave_step h.based.kernel who
          alive := fun hnone => by cases hnone
          closed := by
            intro pins hpins
            cases hpins
            exact ⟨rfl, rfl⟩ }
      fresh := h.fresh
      below := h.below
      drops := h.drops
      streams := h.streams
      released := h.released }
  next := le_rfl
  shut := fun _ => rfl
  keeps := fun _ hholds => hholds
  bytes := fun _ hnone => by cases hnone
  streams := fun hget => ⟨_, hget, Evolves.refl _⟩
  back := fun _ hget => ⟨_, hget⟩

/-- Neither a consumer is added nor the kernel closed. -/
structure Settled (s s' : Session) : Prop where
  next : s'.next = s.next
  shut : s'.closed.isSome = s.closed.isSome

theorem releaseHandle_settled (s : Session) (who : Holder) (consumer : ConsumerId) :
    Settled s (s.releaseHandle who consumer) := by
  unfold releaseHandle
  cases hclosed : s.closed with
  | none => exact ⟨rfl, by rw [hclosed]⟩
  | some pins => exact ⟨rfl, by rw [hclosed]; rfl⟩

theorem destroy_settled (s : Session) (who : Holder) (consumer : ConsumerId) :
    Settled s (s.destroy who consumer) := by
  unfold destroy
  cases s.streams.get consumer with
  | none => exact ⟨rfl, rfl⟩
  | some stream =>
      simp only
      split_ifs
      · exact ⟨rfl, rfl⟩
      · exact ⟨rfl, rfl⟩
      · have hfreed := releaseHandle_settled
          { s with streams := s.streams.set consumer { stream with destroyed := true } }
          who consumer
        exact ⟨hfreed.next, hfreed.shut⟩

theorem release_settled (s : Session) (who : Holder) (consumer : ConsumerId) :
    Settled s (s.release who consumer) := by
  unfold release
  cases s.streams.get consumer with
  | none => exact ⟨rfl, rfl⟩
  | some stream =>
      simp only
      have hdestroyed := destroy_settled s who consumer
      have hfreed := releaseHandle_settled (s.destroy who consumer) who consumer
      unfold markReleased
      cases ((s.destroy who consumer).releaseHandle who consumer).streams.get consumer <;>
        exact ⟨hfreed.next.trans hdestroyed.next, hfreed.shut.trans hdestroyed.shut⟩

theorem destroyAll_next (s : Session) (who : Holder) (consumers : List ConsumerId) :
    (consumers.foldl (destroy who) s).next = s.next := by
  induction consumers generalizing s with
  | nil => rfl
  | cons head rest ih => exact (ih (s.destroy who head)).trans (destroy_settled s who head).next

theorem Sound.destroyed_of_done {consumer : ConsumerId} {stream : VfsReadStream}
    (h : s.Sound fileExt who) (hget : s.streams.get consumer = some stream)
    (hdone : stream.done = true) : stream.destroyed = true := by
  unfold VfsReadStream.done at hdone
  cases hborrowed : stream.borrowed with
  | true =>
      rw [hborrowed] at hdone
      exact h.released hget hdone
  | false =>
      rw [hborrowed] at hdone
      exact hdone

theorem destroyAll_turn (h : s.Sound fileExt who) (consumers : List ConsumerId)
    (hlt : forall consumer, consumer ∈ consumers -> consumer < s.next) :
    Turn fileExt who s (consumers.foldl (destroy who) s) ∧
      forall consumer stream', consumer ∈ consumers ->
        (consumers.foldl (destroy who) s).streams.get consumer = some stream' ->
        stream'.destroyed = true := by
  induction consumers generalizing s with
  | nil => exact ⟨Turn.refl h, fun _ _ hin => by cases hin⟩
  | cons head rest ih =>
      have hhead := destroy_turn h head
      have hbelow : forall consumer, consumer ∈ head :: rest ->
          consumer < (s.destroy who head).next :=
        fun consumer hin => lt_of_lt_of_le (hlt consumer hin) hhead.next
      rcases ih hhead.sound (fun consumer hin => hbelow consumer (List.mem_cons_of_mem _ hin))
        with ⟨hrest, hdestroyed⟩
      refine ⟨hhead.trans hrest, ?_⟩
      intro consumer stream' hin hget
      rcases List.mem_cons.mp hin with heq | hin'
      · rcases hrest.back (hbelow consumer hin) hget with ⟨stream, hold⟩
        rcases hrest.streams hold with ⟨found, hfound, hevolves⟩
        rw [List.foldl_cons] at hget
        rw [hget] at hfound
        rw [Option.some.inj hfound]
        rw [heq] at hold
        exact hevolves.destroyed (destroy_destroyed h hold)
      · exact hdestroyed consumer stream' hin' hget

/-- Once the kernel is closed every stream is destroyed. -/
def Quiet (s : Session) : Prop :=
  s.closed.isSome = true -> forall consumer stream, s.streams.get consumer = some stream ->
    stream.destroyed = true

theorem close_turn (h : s.Sound fileExt who) (hquiet : s.Quiet) :
    Turn fileExt who s (s.close who) ∧ (s.close who).Quiet ∧
      (s.close who).closed.isSome = true := by
  unfold close
  cases hclosed : s.closed with
  | some pins => exact ⟨Turn.refl h, hquiet, by rw [hclosed]; rfl⟩
  | none =>
      simp only
      have hforget := forget_turn h
      have hlt : forall consumer, consumer ∈ s.closers who -> consumer < s.next := by
        intro consumer hin
        rcases OrderedMap.mem_keys_iff.mp (List.mem_filter.mp hin).1 with ⟨stream, hget⟩
        exact h.below hget
      rcases destroyAll_turn hforget.sound (s.closers who) hlt with ⟨hall, hdestroyed⟩
      refine ⟨hforget.trans hall, ?_, hall.shut rfl⟩
      intro _ consumer stream' hget
      by_cases hin : consumer ∈ s.closers who
      · exact hdestroyed consumer stream' hin hget
      · have hnext : consumer < s.next := by
          have hback := hall.sound.below hget
          rw [destroyAll_next] at hback
          exact hback
        rcases hall.back hnext hget with ⟨stream, hold⟩
        have hold : s.streams.get consumer = some stream := hold
        rcases hall.streams hold with ⟨found, hfound, hevolves⟩
        rw [hget] at hfound
        rw [Option.some.inj hfound]
        refine hevolves.destroyed (h.destroyed_of_done hold ?_)
        -- A stream that still holds its pin is among the closers.
        cases hdone : stream.done with
        | true => rfl
        | false =>
            have hheld := h.streams hold
            rw [hdone, if_neg Bool.false_ne_true] at hheld
            refine absurd (List.mem_filter.mpr
              ⟨OrderedMap.mem_keys_iff.mpr ⟨stream, hold⟩, ?_⟩) hin
            rw [hheld]
            rfl

theorem system_turn (h : s.Sound fileExt who) {k : VfsKernel}
    (hstep : NoisyStep fileExt s.kernel k)
    (hheld : s.closed = none ->
      (k.thread? who).map Thread.heldPins = (s.kernel.thread? who).map Thread.heldPins) :
    Turn fileExt who s { s with kernel := k } := by
  have halive : s.closed = none -> exists t', k.thread? who = some t' := by
    intro hopen
    rcases h.based.alive hopen with ⟨t, ht⟩
    have hmap := hheld hopen
    rw [ht, Option.map_some] at hmap
    rcases Option.map_eq_some_iff.mp hmap with ⟨t', ht', _⟩
    exact ⟨t', ht'⟩
  have hholds : forall consumer, ({ s with kernel := k } : Session).holds who consumer =
      s.holds who consumer := by
    intro consumer
    cases hclosed : s.closed with
    | some pins =>
        rw [holds_closed hclosed consumer]
        rfl
    | none =>
        rcases h.based.alive hclosed with ⟨t, ht⟩
        rcases halive hclosed with ⟨t', ht'⟩
        have hmap := hheld hclosed
        rw [ht, ht', Option.map_some, Option.map_some] at hmap
        have hpins : t'.pins.held = t.pins.held := Option.some.inj hmap
        have hother : ({ s with kernel := k, closed := none } : Session).holds who consumer =
            t'.pins.held.get consumer := by
          refine holds_open rfl ?_ consumer
          exact ht'
        rw [hother, holds_open hclosed ht, hpins]
  exact
    { sound :=
        { based := ⟨h.based.kernel.step hstep, halive, h.based.closed⟩
          fresh := fun hfile => h.fresh ((hholds _).symm.trans hfile)
          below := h.below
          drops := fun consumer => by rw [hholds]; exact h.drops consumer
          streams := fun hget => (hholds _).trans (h.streams hget)
          released := h.released }
      next := le_rfl
      shut := id
      keeps := fun _ hfile => (hholds _).symm.trans hfile
      bytes := by
        intro consumer file _ hopen hfile
        rcases halive hopen with ⟨t', ht'⟩
        have hfile' := hfile
        rw [holds_open (s := { s with kernel := k }) hopen ht'] at hfile'
        exact bytes_of_step h.based.kernel hstep ht' hfile'
      streams := fun hget => ⟨_, hget, Evolves.refl _⟩
      back := fun _ hget => ⟨_, hget⟩ }

/-!
# A read
-/

theorem read_done (stream : VfsReadStream) (data : Bytes) :
    (stream.read data).done = stream.done ∧ (stream.read data).file = stream.file ∧
      (stream.read data).range = stream.range ∧
      (stream.read data).highWaterMark = stream.highWaterMark ∧
      (stream.read data).borrowed = stream.borrowed ∧
      (stream.read data).released = stream.released ∧
      (stream.read data).destroyed = stream.destroyed := by
  unfold VfsReadStream.read
  split_ifs <;> exact ⟨rfl, rfl, rfl, rfl, rfl, rfl, rfl⟩

/-- A read does nothing, or takes one more chunk of one stream. -/
theorem read_cases (s : Session) (consumer : ConsumerId) :
    s.read consumer = s ∨ exists stream, s.streams.get consumer = some stream ∧
      stream.destroyed = false ∧
      s.read consumer = { s with
        streams := s.streams.set consumer
          (stream.read (stream.file.bytes s.kernel.cache.mem)) } := by
  unfold Session.read
  cases hget : s.streams.get consumer with
  | none => exact Or.inl rfl
  | some stream =>
      simp only
      split_ifs with hstop
      · exact Or.inl rfl
      · rw [Bool.or_eq_true, not_or, Bool.not_eq_true] at hstop
        exact Or.inr ⟨stream, rfl, hstop.1, rfl⟩

theorem read_sound (h : s.Sound fileExt who) (consumer : ConsumerId) :
    (s.read consumer).Sound fileExt who := by
  rcases read_cases s consumer with heq | ⟨stream, hget, hdestroyed, heq⟩
  · rw [heq]
    exact h
  · rw [heq]
    rcases read_done stream (stream.file.bytes s.kernel.cache.mem) with
      ⟨hdone, hfile, _, _, _, hreleased, hsame⟩
    exact
      { based := ⟨h.based.kernel, h.based.alive, h.based.closed⟩
        fresh := h.fresh
        below := by
          intro other found hfound
          rcases set_cases hfound with ⟨hother, _⟩ | ⟨_, hold⟩
          · rw [hother]
            exact h.below hget
          · exact h.below hold
        drops := h.drops
        streams := by
          intro other found hfound
          rcases set_cases hfound with ⟨hother, hnew⟩ | ⟨_, hold⟩
          · rw [hother, hnew, hdone, hfile]
            exact h.streams hget
          · exact h.streams hold
        released := by
          intro other found hfound hrel
          rcases set_cases hfound with ⟨_, hnew⟩ | ⟨_, hold⟩
          · rw [hnew] at hrel ⊢
            rw [hreleased] at hrel
            rw [hsame]
            exact h.released hget hrel
          · exact h.released hold hrel }

end Session
end SharedMemoryFs
