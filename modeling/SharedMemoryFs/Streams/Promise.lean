import SharedMemoryFs.Streams.Delivery

/-!
# What a stream promises

Over whole runs of a session: from the call that created it on, a stream delivers its
range of the bytes the file held then, in chunks no longer than asked for, and holds
its pin until it is destroyed or, with borrowed chunks, released.
-/

namespace SharedMemoryFs

open Foundation FilesystemCache

namespace Session

variable {fileExt : Key -> Ext} {who : Holder} {s s' : Session}

/-!
# Steps
-/

theorem quiet_of_turn (hquiet : s.Quiet) (hturn : Turn fileExt who s s')
    (hsettled : Settled s s') : s'.Quiet := by
  intro hshut consumer stream' hget
  rw [hsettled.shut] at hshut
  have hlt : consumer < s.next := hsettled.next ▸ hturn.sound.below hget
  rcases hturn.back hlt hget with ⟨stream, hold⟩
  rcases hturn.streams hold with ⟨found, hfound, hevolves⟩
  rw [hget] at hfound
  rw [Option.some.inj hfound]
  exact hevolves.destroyed (hquiet hshut consumer stream hold)

theorem quiet_of_open (hopen : s.closed = none) : s.Quiet := by
  intro hshut
  rw [hopen] at hshut
  cases hshut

theorem createReadStream_open (s : Session) (who : Holder) (zeroCopy : Bool) (slot : Slot)
    (options : StreamOptions) :
    (s.createReadStream who zeroCopy slot options).1 = s ∨
      (s.closed = none ∧
        (s.createReadStream who zeroCopy slot options).1.closed.isSome = false) := by
  unfold createReadStream
  cases hfile : s.file who slot with
  | none => exact Or.inl rfl
  | some file =>
      simp only
      split_ifs
      · exact Or.inl rfl
      · have hopen := (file_open hfile).1
        unfold stream
        cases borrowedOf zeroCopy options with
        | error error => exact Or.inl rfl
        | ok borrowed =>
            simp only
            cases rangeOf options file.length with
            | error error => exact Or.inl rfl
            | ok range =>
                simp only
                refine Or.inr ⟨hopen, ?_⟩
                have hpinned : (s.pin who slot).closed.isSome = false := by
                  show s.closed.isSome = false
                  rw [hopen]
                  rfl
                have hrefused := (releaseHandle_settled (s.pin who slot) who s.next).shut
                cases highWaterMarkOf options.highWaterMark with
                | none => exact hrefused.trans hpinned
                | some highWaterMark =>
                    simp only
                    split_ifs
                    · exact hrefused.trans hpinned
                    · exact (destroy_settled _ who s.next).shut.trans hpinned
                    · exact hpinned

theorem createReadStream_quiet (hquiet : s.Quiet) (zeroCopy : Bool) (slot : Slot)
    (options : StreamOptions) : (s.createReadStream who zeroCopy slot options).1.Quiet := by
  rcases createReadStream_open s who zeroCopy slot options with heq | ⟨_, hopen⟩
  · rw [heq]
    exact hquiet
  · intro hshut
    rw [hopen] at hshut
    cases hshut

theorem readFileView_quiet (hquiet : s.Quiet) (slot : Slot) :
    (s.readFileView who slot).Quiet := by
  unfold readFileView
  cases hfile : s.file who slot with
  | none => exact hquiet
  | some file =>
      simp only
      split_ifs
      · exact hquiet
      · exact quiet_of_open (file_open hfile).1

theorem read_quiet (hquiet : s.Quiet) (consumer : ConsumerId) : (s.read consumer).Quiet := by
  rcases read_cases s consumer with heq | ⟨stream, hget, hdestroyed, heq⟩
  · rw [heq]
    exact hquiet
  · rw [heq]
    intro hshut
    have hstopped := hquiet hshut consumer stream hget
    rw [hdestroyed] at hstopped
    cases hstopped

theorem step_sound (h : s.Sound fileExt who) (hquiet : s.Quiet)
    (hstep : Step fileExt who s s') : s'.Sound fileExt who ∧ s'.Quiet := by
  cases hstep with
  | system k hk hheld => exact ⟨(system_turn h hk hheld).sound, hquiet⟩
  | create zeroCopy slot options =>
      exact ⟨(createReadStream_turn h zeroCopy slot options).sound,
        createReadStream_quiet hquiet zeroCopy slot options⟩
  | read consumer => exact ⟨read_sound h consumer, read_quiet hquiet consumer⟩
  | destroy consumer =>
      have hturn := destroy_turn h consumer
      exact ⟨hturn.sound, quiet_of_turn hquiet hturn (destroy_settled s who consumer)⟩
  | release consumer =>
      have hturn := release_turn h consumer
      exact ⟨hturn.sound, quiet_of_turn hquiet hturn (release_settled s who consumer)⟩
  | view slot => exact ⟨(readFileView_turn h slot).sound, readFileView_quiet hquiet slot⟩
  | endView consumer hnone =>
      have hturn := endView_turn h hnone
      exact ⟨hturn.sound, quiet_of_turn hquiet hturn (releaseHandle_settled s who consumer)⟩
  | close =>
      rcases close_turn h hquiet with ⟨hturn, hstopped, _⟩
      exact ⟨hturn.sound, hstopped⟩

theorem initial_sound {k : VfsKernel} {t : Thread} (hk : NoisyReachable fileExt k)
    (ht : k.thread? who = some t) (hsize : t.pins.held.size = 0) :
    (initial k).Sound fileExt who ∧ (initial k).Quiet := by
  have hholds : forall consumer, (initial k).holds who consumer = none := by
    intro consumer
    have hheld : (initial k).holds who consumer = t.pins.held.get consumer :=
      holds_open rfl ht consumer
    rw [hheld]
    exact OrderedMap.get_eq_none_of_size_zero hsize consumer
  constructor
  · exact
      { based := ⟨hk, fun _ => ⟨t, ht⟩, fun _ hclosed => by cases hclosed⟩
        fresh := fun hfile => by
          rw [hholds] at hfile
          cases hfile
        below := fun hget => by cases hget
        drops := fun consumer => (if_neg (fun h => Nat.not_lt_zero consumer h.1)).symm
        streams := fun hget => by cases hget
        released := fun hget => by cases hget }
  · exact quiet_of_open rfl

theorem Reachable.sound (h : Reachable fileExt who s) : s.Sound fileExt who ∧ s.Quiet := by
  induction h with
  | initial k t hk ht hsize => exact initial_sound hk ht hsize
  | step _ hstep ih => exact step_sound ih.1 ih.2 hstep

/-!
# One stream over a run
-/

/-- The stream of {lit}`consumer` is {lit}`first` read on, over {lit}`version`. -/
def Tracks (s : Session) (consumer : ConsumerId) (first : VfsReadStream) (version : Bytes) :
    Prop :=
  exists stream, s.streams.get consumer = some stream ∧ stream.file = first.file ∧
    stream.range = first.range ∧ stream.highWaterMark = first.highWaterMark ∧
    stream.borrowed = first.borrowed ∧ stream.Delivers version ∧
    (s.closed = none -> stream.done = false ->
      first.file.bytes s.kernel.cache.mem = version)

theorem tracks_turn (h : s.Sound fileExt who) {consumer : ConsumerId} {first : VfsReadStream}
    {version : Bytes} (htracks : s.Tracks consumer first version)
    (hturn : Turn fileExt who s s') : s'.Tracks consumer first version := by
  rcases htracks with ⟨stream, hget, hfile, hrange, hmark, hborrowed, hdelivers, hbytes⟩
  rcases hturn.streams hget with ⟨stream', hget', hevolves⟩
  rcases hevolves.fields with ⟨hfile', hrange', hmark', hborrowed'⟩
  refine ⟨stream', hget', hfile'.trans hfile, hrange'.trans hrange, hmark'.trans hmark,
    hborrowed'.trans hborrowed, hevolves.delivers hdelivers, ?_⟩
  intro hopen' hdone'
  have hlt := h.below hget
  have hheld' := hturn.sound.streams hget'
  rw [hdone', if_neg Bool.false_ne_true, hfile', hfile] at hheld'
  have hopen : s.closed = none := by
    cases hclosed : s.closed with
    | none => rfl
    | some pins =>
        have hshut := hturn.shut (by rw [hclosed]; rfl)
        rw [hopen'] at hshut
        cases hshut
  have hdone : stream.done = false := by
    cases hdone : stream.done with
    | false => rfl
    | true =>
        rw [hevolves.done hdone] at hdone'
        cases hdone'
  rw [hturn.bytes hlt hopen' hheld']
  exact hbytes hopen hdone

theorem tracks_read (h : s.Sound fileExt who) (hquiet : s.Quiet) {consumer : ConsumerId}
    {first : VfsReadStream} {version : Bytes} (htracks : s.Tracks consumer first version)
    (other : ConsumerId) : (s.read other).Tracks consumer first version := by
  rcases read_cases s other with heq | ⟨stream, hget, hdestroyed, heq⟩
  · rw [heq]
    exact htracks
  · rw [heq]
    rcases htracks with ⟨found, hfound, hfile, hrange, hmark, hborrowed, hdelivers, hbytes⟩
    by_cases hsame : consumer = other
    · rw [hsame, hget] at hfound
      have hfound : stream = found := Option.some.inj hfound
      subst hfound
      -- A stream that is not destroyed holds its pin in a kernel that is open.
      have hopen : s.closed = none := by
        cases hclosed : s.closed with
        | none => rfl
        | some pins =>
            rw [hquiet (by rw [hclosed]; rfl) other stream hget] at hdestroyed
            cases hdestroyed
      have hdone : stream.done = false := by
        cases hdone : stream.done with
        | false => rfl
        | true =>
            rw [h.destroyed_of_done hget hdone] at hdestroyed
            cases hdestroyed
      have hversion := hbytes hopen hdone
      rw [hfile, hversion]
      rcases read_done stream version with
        ⟨_, hfile', hrange', hmark', hborrowed', _, _⟩
      refine ⟨stream.read version, ?_, hfile'.trans hfile, hrange'.trans hrange,
        hmark'.trans hmark, hborrowed'.trans hborrowed, hdelivers.read, fun _ _ => hversion⟩
      rw [hsame]
      exact OrderedMap.get_set_self _ _ _
    · refine ⟨found, ?_, hfile, hrange, hmark, hborrowed, hdelivers, hbytes⟩
      exact (OrderedMap.get_set_ne _ _ hsame).trans hfound

theorem tracks_step (h : s.Sound fileExt who) (hquiet : s.Quiet) {consumer : ConsumerId}
    {first : VfsReadStream} {version : Bytes} (htracks : s.Tracks consumer first version)
    (hstep : Step fileExt who s s') : s'.Tracks consumer first version := by
  cases hstep with
  | system k hk hheld => exact tracks_turn h htracks (system_turn h hk hheld)
  | create zeroCopy slot options =>
      exact tracks_turn h htracks (createReadStream_turn h zeroCopy slot options)
  | read other => exact tracks_read h hquiet htracks other
  | destroy other => exact tracks_turn h htracks (destroy_turn h other)
  | release other => exact tracks_turn h htracks (release_turn h other)
  | view slot => exact tracks_turn h htracks (readFileView_turn h slot)
  | endView other hnone => exact tracks_turn h htracks (endView_turn h hnone)
  | close => exact tracks_turn h htracks (close_turn h hquiet).1

theorem tracks_run (h : s.Sound fileExt who) (hquiet : s.Quiet) {consumer : ConsumerId}
    {first : VfsReadStream} {version : Bytes} (htracks : s.Tracks consumer first version)
    (hrun : Run fileExt who s s') :
    s'.Sound fileExt who ∧ s'.Quiet ∧ s'.Tracks consumer first version := by
  induction hrun with
  | refl => exact ⟨h, hquiet, htracks⟩
  | step _ hstep ih =>
      rcases step_sound ih.1 ih.2.1 hstep with ⟨hsound, hstill⟩
      exact ⟨hsound, hstill, tracks_step ih.1 ih.2.1 ih.2.2 hstep⟩

/-!
# Main results
-/

/-- What was pushed is a prefix of the range, in chunks no longer than asked for, all
of it at the end; and while the pin is held a borrowed chunk still shows what it showed
when it was pushed. -/
structure Delivered (stream : VfsReadStream) (version : Bytes) (range : Range)
    (highWaterMark : Nat) (pinned : Bool) (now : Bytes) : Prop where
  pushed : (stream.pushed.map Chunk.bytes).flatten <+:
    subarray version range.start (range.end + 1)
  chunks : forall chunk, chunk ∈ stream.pushed ->
    0 < chunk.bytes.length ∧ chunk.bytes.length ≤ highWaterMark
  ended : stream.ended = true -> (stream.pushed.map Chunk.bytes).flatten =
    subarray version range.start (range.end + 1)
  lasting : pinned = true -> forall chunk, chunk ∈ stream.pushed ->
    chunk.shows now = chunk.bytes

theorem delivered_of {stream : VfsReadStream} {version : Bytes}
    (h : stream.Delivers version) {pinned : Bool} {now : Bytes}
    (hnow : pinned = true -> now = version) :
    Delivered stream version stream.range stream.highWaterMark pinned now where
  pushed := by
    rw [h.pushed, ← subarray_append version h.low h.high]
    exact List.prefix_append _ _
  chunks := h.chunks
  ended := fun hended => by rw [h.pushed, h.ended hended]
  lasting := by
    intro hpinned chunk hchunk
    rw [hnow hpinned]
    exact h.views chunk hchunk

theorem Sound.pins_sound (h : s.Sound fileExt who) (hopen : s.closed = none) :
    (s.pins who).Sound := by
  rcases h.based.alive hopen with ⟨t, ht⟩
  have hpins : s.pins who = t.pins := by
    unfold Session.pins
    rw [hopen]
    simp only [ht, Option.map_some, Option.getD_some]
  rw [hpins]
  cases who with
  | main =>
      cases ht
      exact h.based.kernel.sound.main.sound.pins
  | link id =>
      rcases VfsKernel.thread?_link ht with ⟨link, hget, hworker⟩
      exact (h.based.kernel.sound.attached hget hworker).sound.pins

theorem rangeOf_spec (options : StreamOptions) (size : Nat) :
    (exists range, rangeOf options size = Except.ok range ∧ range.Within size) ∨
      exists error, rangeOf options size = Except.error error ∧
        (error.isRangeError = true ∨ (error = StreamError.cannotPrint ∧
          (options.start.printable = false ∨ options.end.printable = false))) := by
  cases hrange : rangeOf options size with
  | ok range => exact Or.inl ⟨range, rfl, rangeOf_within hrange⟩
  | error error => exact Or.inr ⟨error, rfl, rangeOf_error hrange⟩

end Session

open Session in
/-- Whatever happens after the call that created a stream: it delivers its range of the
bytes its file held then, its closure drops once and when the stream is done, and until
then, while the kernel of the thread is open, its file is counted. -/
theorem streams_deliver {fileExt : Key -> Ext} {who : Holder} {s s₁ s' : Session}
    {zeroCopy : Bool} {slot : Slot} {options : StreamOptions} {consumer : ConsumerId}
    (h : Session.Reachable fileExt who s)
    (hcreate : s.createReadStream who zeroCopy slot options =
      (s₁, StreamResult.stream consumer))
    (hrun : Session.Run fileExt who s₁ s') :
    (forall options size,
      (exists range, rangeOf options size = Except.ok range ∧ range.Within size) ∨
        exists error, rangeOf options size = Except.error error ∧
          (error.isRangeError = true ∨ (error = StreamError.cannotPrint ∧
            (options.start.printable = false ∨ options.end.printable = false)))) ∧
    exists file range highWaterMark stream,
      s.file who slot = some file ∧ rangeOf options file.length = Except.ok range ∧
      highWaterMarkOf options.highWaterMark = some highWaterMark ∧
      s'.streams.get consumer = some stream ∧
      Delivered stream (file.bytes s.kernel.cache.mem) range highWaterMark
        (s'.closed.isNone && !stream.done) (file.bytes s'.kernel.cache.mem) ∧
      (s'.closed = none ->
        s'.holds who consumer = (if stream.done then none else some file) ∧
        (stream.done = false -> (s'.pins who).counts.has file = true) ∧
        ((s'.pins who).counts.get file).getD 0 = (s'.pins who).consumers file) ∧
      (s'.closed.isSome = true -> stream.destroyed = true ∧
        (s'.pins who).counts = OrderedMap.empty) ∧
      s'.drops.count consumer = if stream.done then 1 else 0 := by
  rcases h.sound with ⟨hsound, hquiet⟩
  refine ⟨rangeOf_spec, ?_⟩
  rcases createReadStream_created hsound hcreate with
    ⟨file, range, highWaterMark, borrowed, hcreated⟩
  have hturn := createReadStream_turn hsound zeroCopy slot options
  have hstill : (s.createReadStream who zeroCopy slot options).1.Quiet :=
    createReadStream_quiet hquiet zeroCopy slot options
  rw [hcreate] at hturn hstill
  have hlength := length_bytes hsound.based hcreated.pinned s.kernel.cache.mem
  have hfirst : (VfsReadStream.new file range highWaterMark
      (borrowed && decide (options.encoding = StreamEncoding.none))).Delivers
      (file.bytes s.kernel.cache.mem) :=
    delivers_new (hlength.symm ▸ rangeOf_within hcreated.covers)
      (highWaterMarkOf_pos hcreated.marked) _
  have htracks : s₁.Tracks consumer (VfsReadStream.new file range highWaterMark
      (borrowed && decide (options.encoding = StreamEncoding.none)))
      (file.bytes s.kernel.cache.mem) := by
    rcases hcreated.opened with ⟨stream, hget, hevolves⟩
    rcases hevolves.fields with ⟨hfile, hrange, hmark, hborrowed⟩
    refine ⟨stream, hget, hfile, hrange, hmark, hborrowed, hevolves.delivers hfirst, ?_⟩
    intro hopen hdone
    have hheld := hturn.sound.streams hget
    rw [hdone, if_neg Bool.false_ne_true, hfile] at hheld
    exact hcreated.kept hopen hheld
  rcases tracks_run hturn.sound hstill htracks hrun with ⟨hsound', hquiet', htracked⟩
  rcases htracked with ⟨stream, hget, hfile, hrange, hmark, _, hdelivers, hbytes⟩
  have hrange : stream.range = range := hrange
  have hmark : stream.highWaterMark = highWaterMark := hmark
  have hfile : stream.file = file := hfile
  have hheld := hsound'.streams hget
  rw [hfile] at hheld
  refine ⟨file, range, highWaterMark, stream, hcreated.pinned, hcreated.covers,
    hcreated.marked, hget, ?_, ?_, ?_, ?_⟩
  · rw [← hrange, ← hmark]
    refine delivered_of hdelivers ?_
    intro hpinned
    rw [Bool.and_eq_true, Option.isNone_iff_eq_none, Bool.not_eq_true'] at hpinned
    exact hbytes hpinned.1 hpinned.2
  · intro hopen
    have hpins := hsound'.pins_sound hopen
    refine ⟨hheld, ?_, hpins.counts file⟩
    intro hdone
    rw [hdone, if_neg Bool.false_ne_true] at hheld
    exact hpins.held_counted hheld
  · intro hshut
    refine ⟨hquiet' hshut consumer stream hget, ?_⟩
    rcases Option.isSome_iff_exists.mp hshut with ⟨pins, hclosed⟩
    have hpins : s'.pins who = pins := by
      unfold Session.pins
      rw [hclosed]
    rw [hpins]
    exact (hsound'.based.closed pins hclosed).1
  · rw [hsound'.drops, hheld]
    have hlt := hsound'.below hget
    cases stream.done with
    | true => simp [hlt]
    | false => simp

/-!
# An example stream

The main thread reads the published file in borrowed chunks of one byte.
-/

namespace Session

def demoOptions : StreamOptions :=
  { start := OptionValue.undefined
    «end» := OptionValue.undefined
    encoding := StreamEncoding.none
    highWaterMark := OptionValue.integer 1
    signal := Signal.none
    zeroCopy := none }

def demo : Session := initial VfsKernel.demoPublished

def demoCreated : Session × StreamResult :=
  demo.createReadStream Holder.main true VfsKernel.demoSlot demoOptions

theorem demo_reachable : Reachable VfsKernel.demoExt Holder.main demo :=
  Reachable.initial _ _ VfsKernel.demoPublished_reachable.noisy rfl rfl

theorem demoCreated_reachable : Reachable VfsKernel.demoExt Holder.main demoCreated.1 :=
  demo_reachable.step (Step.create true VfsKernel.demoSlot demoOptions)

end Session

/-- Two reads, then the kernel closes. -/
theorem streams_deliver_demo : exists stream,
    ((Session.demoCreated.1.read 0).close Holder.main).streams.get 0 = some stream ∧
      stream.destroyed = true ∧ (stream.pushed.map Chunk.bytes).flatten = [1] := by
  rcases (streams_deliver Session.demo_reachable
    (show Session.demo.createReadStream Holder.main true VfsKernel.demoSlot
      Session.demoOptions = (Session.demoCreated.1, StreamResult.stream 0) from rfl)
    ((Session.Run.refl.step (Session.Step.read 0)).step Session.Step.close)).2 with
    ⟨_, _, _, stream, _, _, _, hget, _, _, hclosed, _⟩
  refine ⟨stream, hget, (hclosed rfl).1, ?_⟩
  have hread : ((Session.demoCreated.1.read 0).close Holder.main).streams.get 0 =
      some stream := hget
  have hpushed : (((Session.demoCreated.1.read 0).close Holder.main).streams.get 0).map
      (fun stream => (stream.pushed.map Chunk.bytes).flatten) = some [1] := rfl
  rw [hread] at hpushed
  exact Option.some.inj hpushed

/-- A borrowed stream that was never released is not pinned any more once the kernel
closed. -/
theorem unpinned_by_close :
    ¬ forall (s : Session) (consumer : ConsumerId) (stream : VfsReadStream),
      Session.Reachable VfsKernel.demoExt Holder.main s ->
      s.streams.get consumer = some stream -> stream.borrowed = true ->
      stream.released = false -> (s.pins Holder.main).counts.has stream.file = true := by
  intro h
  let s := Session.demoCreated.1.close Holder.main
  have hreachable : Session.Reachable VfsKernel.demoExt Holder.main s :=
    Session.demoCreated_reachable.step Session.Step.close
  have hfound : (s.streams.get 0).map (fun stream => (stream.borrowed, stream.released)) =
      some (true, false) := rfl
  rcases Option.map_eq_some_iff.mp hfound with ⟨stream, hget, hflags⟩
  rw [Prod.mk.injEq] at hflags
  have hcounted := h s 0 stream hreachable hget hflags.1 hflags.2
  have hcounts : (s.pins Holder.main).counts = OrderedMap.empty := rfl
  rw [hcounts] at hcounted
  cases hcounted

end SharedMemoryFs
