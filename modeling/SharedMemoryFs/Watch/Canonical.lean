import SharedMemoryFs.Watch.Upcoming

/-!
# What a publication makes of a file

The canonical form of a file on disk, and the publication that stages it: whatever is
awaited on the way, what reaches the index was made of the bytes that lie on the disk.
-/

namespace SharedMemoryFs.Lifecycle

open Foundation

/-- What the pipeline makes of the bytes of a file. -/
def canonicalForm (hosted : HostedPlace) (key : Key) (stat : Stat) (raw : Bytes) :
    Except Refusal PlaceFile :=
  match hosted.place.preparerOf key with
  | none => Except.ok { data := raw, stat := stat }
  | some preparer => (hosted.place.prepareInput key stat raw preparer).2

/-- An input with its bytes. -/
def fileOf (input : FileInput) (data : Bytes) : PlaceFile :=
  { data := data
    stat := input.stat
    scriptOptions := input.scriptOptions
    metadata := input.metadata }

namespace Disk

/-- The canonical form of the file that lies at the path of the key. -/
def Renders (d : Disk) (hosted : HostedPlace) (key : Key) (file : PlaceFile) : Prop :=
  exists raw stats, d.read (hosted.pathOf key) = some raw ∧
    d.stat (hosted.pathOf key) = Except.ok stats ∧
      canonicalForm hosted key stats.stat raw = Except.ok file

/-- An input whose bytes, in memory or still on disk, are of the canonical form. -/
structure Suits (d : Disk) (hosted : HostedPlace) (key : Key) (input : FileInput) : Prop where
  memory : forall data, input.data = some data -> d.Renders hosted key (fileOf input data)
  disk : input.data = none -> input.path = some (hosted.place.pathOf key) ∧
    forall data, d.read (hosted.pathOf key) = some data -> d.Renders hosted key (fileOf input data)
  map : hosted.provider = Provider.map -> exists data, input.data = some data

end Disk

variable {c : Async.Contract Ask.reply Kernel} {d : Disk} {strict : Bool}
variable {hosted : HostedPlace} {key : Key}

/-- The contract's answers are those of the disk. -/
def FromDisk (c : Async.Contract Ask.reply Kernel) (d : Disk) (strict : Bool) : Prop :=
  forall question answer k, c.answers question answer k -> d.Answers strict question answer

/-!
# The input
-/

section Input

variable (hc : c.Steady) (hd : FromDisk c d strict)
include hc hd

theorem yields_rawOf (stat : Stat) :
    Yields c (fun raw => d.read (hosted.pathOf key) = some raw)
      (rawOf hosted key (diskFile hosted key stat)) := by
  apply yields_cached
  apply yields_bind (p := fun answer : Option Bytes => forall raw, answer = some raw ->
    d.read (hosted.pathOf key) = some raw)
  · apply yields_ask hc
    intro answer k hanswer raw hraw
    exact hd _ _ _ hanswer _ raw rfl hraw
  · intro answer hanswer
    cases answer with
    | some raw => exact yields_done (hanswer raw rfl)
    | none => exact yields_throw _

theorem yields_input {stats : DiskStat} (hstat : d.stat (hosted.pathOf key) = Except.ok stats) :
    Yields c (d.Suits hosted key) (input hosted key (diskFile hosted key stats.stat)) := by
  unfold input
  cases hpreparer : hosted.place.preparerOf key with
  | some preparer =>
      apply yields_bind (yields_rawOf hc hd stats.stat)
      intro raw hraw
      cases hprepared : (hosted.place.prepareInput key stats.stat raw preparer).2 with
      | error refusal =>
          have heq : prepareInput hosted key stats.stat raw preparer =
              Except.error (Fault.refused refusal) := by
            unfold prepareInput
            rw [hprepared]
          show Yields c _ (Async.ofExcept (prepareInput hosted key stats.stat raw preparer))
          rw [heq]
          exact yields_throw _
      | ok file =>
          have heq : prepareInput hosted key stats.stat raw preparer =
              Except.ok
                { data := some file.data
                  path := none
                  stat := file.stat
                  metadata := file.metadata
                  scriptOptions := file.scriptOptions } := by
            unfold prepareInput
            rw [hprepared]
          show Yields c _ (Async.ofExcept (prepareInput hosted key stats.stat raw preparer))
          rw [heq]
          apply yields_done
          constructor
          · intro data hdata
            cases hdata
            refine ⟨raw, stats, hraw, hstat, ?_⟩
            unfold canonicalForm
            rw [hpreparer]
            exact hprepared
          · intro hnone
            cases hnone
          · exact fun _ => ⟨file.data, rfl⟩
  | none =>
      have hrenders : forall raw, d.read (hosted.pathOf key) = some raw ->
          d.Renders hosted key { data := raw, stat := stats.stat } := by
        intro raw hraw
        refine ⟨raw, stats, hraw, hstat, ?_⟩
        unfold canonicalForm
        rw [hpreparer]
      dsimp only
      split_ifs with hmap
      · apply yields_bind (yields_rawOf hc hd stats.stat)
        intro raw hraw
        apply yields_done
        constructor
        · intro data hdata
          cases hdata
          exact hrenders raw hraw
        · intro hnone
          cases hnone
        · exact fun _ => ⟨raw, rfl⟩
      · apply yields_done
        constructor
        · intro data hdata
          cases hdata
        · exact fun _ => ⟨rfl, hrenders⟩
        · exact fun hprovider => absurd hprovider hmap

theorem yields_allocate {input : FileInput} (h : d.Suits hosted key input) :
    Yields c (fun placed => forall data, placed = some data ->
        d.Renders hosted key (fileOf input data))
      (allocate hosted (EntryKey.ofSource key) input) := by
  apply yields_cached
  apply yields_bind (p := fun placed : Placed => forall path data, input.data = none ->
    input.path = some path -> placed.read = some data -> d.read path.toList = some data)
  · apply yields_ask hc
    intro answer k hanswer
    exact hd _ _ _ hanswer
  · intro placed hplaced
    cases hdata : input.data with
    | some data =>
        apply yields_done
        intro data' hdata'
        split_ifs at hdata'
        cases hdata'
        exact h.memory data hdata
    | none =>
        rcases h.disk hdata with ⟨hpath, hrenders⟩
        cases hread : placed.read with
        | some data =>
            apply yields_done
            intro data' hdata'
            cases hdata'
            exact hrenders data (hplaced _ data hdata hpath hread)
        | none => exact yields_throw _

end Input

/-!
# Its companions
-/

/-- The source comes first, and nothing else has its key. -/
def Built.Carries (key : Key) (source : PlaceFile) (built : Built) : Prop :=
  (exists rest, built.allocated = (EntryKey.ofSource key, source) :: rest ∧
    forall entry, entry ∈ rest -> entry.1 ≠ EntryKey.ofSource key) ∧
      forall companion, companion ∈ built.dropped -> companion ≠ EntryKey.ofSource key

theorem Built.Carries.add {source : PlaceFile} {built : Built} (h : built.Carries key source)
    {companion : EntryKey} (hne : companion ≠ EntryKey.ofSource key) (file : PlaceFile) :
    (built.add companion file).Carries key source := by
  rcases h with ⟨⟨rest, heq, hrest⟩, hdropped⟩
  constructor
  · refine ⟨rest ++ [(companion, file)], ?_, ?_⟩
    · show built.allocated ++ [(companion, file)] = _
      rw [heq, List.cons_append]
    · intro entry hmem
      rcases List.mem_append.mp hmem with hold | hnew
      · exact hrest entry hold
      · rw [List.mem_singleton.mp hnew]
        exact hne
  · exact hdropped

theorem Built.Carries.drop {source : PlaceFile} {built : Built} (h : built.Carries key source)
    {companion : EntryKey} (hne : companion ≠ EntryKey.ofSource key) :
    (built.drop companion).Carries key source := by
  constructor
  · exact h.1
  · intro dropped hmem
    rcases List.mem_append.mp hmem with hold | hnew
    · exact h.2 dropped hold
    · rw [List.mem_singleton.mp hnew]
      exact hne

section Companions

variable (hc : c.Steady) {source : PlaceFile} {built : Built}
include hc

theorem carries_bytecodeLoop (mtimeMs : Nat) {codes : List Place.Code}
    (hcodes : forall code, code ∈ codes -> code.key ≠ EntryKey.ofSource key)
    (h : built.Carries key source) :
    Yields c (Built.Carries key source) (bytecodeLoop hosted mtimeMs codes built) := by
  induction codes generalizing built with
  | nil => exact yields_done h
  | cons code rest ih =>
      have hrest : forall code, code ∈ rest -> code.key ≠ EntryKey.ofSource key :=
        fun code hmem => hcodes code (List.mem_cons_of_mem _ hmem)
      have hne := hcodes code List.mem_cons_self
      unfold bytecodeLoop
      cases code.data with
      | some data =>
          apply keeps_bind (keeps_allocate hc hosted _ _)
          intro placed
          cases placed with
          | some _ => exact ih hrest (h.add hne _)
          | none =>
              simp only
              split_ifs
              · exact yields_throw _
              · exact ih hrest (h.drop hne)
      | none =>
          simp only
          split_ifs
          · exact yields_throw _
          · exact ih hrest (h.drop hne)

theorem carries_bytecode (h : built.Carries key source) :
    Yields c (Built.Carries key source) (bytecode hosted key source built) := by
  unfold bytecode
  split_ifs
  · exact yields_done h
  · apply yields_cached
    apply keeps_bind (keeps_ask hc _)
    intro answer
    cases answer with
    | none => exact yields_throw _
    | some bytes =>
        apply carries_bytecodeLoop hc _ _ h
        intro code hmem heq
        rcases List.mem_map.mp hmem with ⟨domain, _, hcode⟩
        rw [← hcode] at heq
        cases heq

theorem carries_compressLoop (encoded : List (Encoding × Option Bytes))
    (h : built.Carries key source) :
    Yields c (Built.Carries key source) (compressLoop hosted key source encoded built) := by
  have hne : forall encoding, compressedKey key encoding ≠ EntryKey.ofSource key := by
    intro encoding heq
    cases heq
  induction encoded generalizing built with
  | nil => exact yields_done h
  | cons code rest ih =>
      rcases code with ⟨encoding, data?⟩
      cases data? with
      | none => exact ih (h.drop (hne encoding))
      | some data =>
          apply keeps_bind (keeps_allocate hc hosted _ _)
          intro placed
          cases placed with
          | some _ => exact ih (h.add (hne encoding) _)
          | none => exact ih (h.drop (hne encoding))

theorem carries_compress (h : built.Carries key source) :
    Yields c (Built.Carries key source) (compress hosted key source built) := by
  apply yields_cached
  split_ifs
  · apply keeps_bind (keeps_ask hc _)
    intro bytes
    apply keeps_bind (keeps_encoders hc hosted key bytes)
    intro encode
    exact yields_alive (carries_compressLoop hc _ h)
  · exact yields_done h

end Companions

theorem get_stageAll_carries {source : PlaceFile} {built : Built} (h : built.Carries key source)
    (k : Kernel) (ep : EpochRef) :
    ((k.stageAll ep (built.changes hosted.name)).epoch ep).changes.get (sourceSlot hosted key) =
      some (some source) := by
  rcases h with ⟨⟨rest, heq, hrest⟩, hdropped⟩
  have hothers : forall change,
      change ∈ rest.map (fun entry => ((⟨hosted.name, entry.1⟩ : Slot), some entry.2)) ++
        built.dropped.map (fun key => ((⟨hosted.name, key⟩ : Slot), none)) ->
      change.1 ≠ sourceSlot hosted key := by
    intro change hmem hslot
    rcases List.mem_append.mp hmem with hentry | hdrop
    · rcases List.mem_map.mp hentry with ⟨entry, hin, hchange⟩
      rw [← hchange] at hslot
      exact hrest entry hin (Slot.mk.inj hslot).2
    · rcases List.mem_map.mp hdrop with ⟨companion, hin, hchange⟩
      rw [← hchange] at hslot
      exact hdropped companion hin (Slot.mk.inj hslot).2
  unfold Built.changes
  rw [heq, List.map_cons, List.cons_append]
  show (((k.stage ep (sourceSlot hosted key) (some source)).stageAll ep _).epoch ep).changes.get _ = _
  rw [get_stageAll_ne hothers, epoch_stage, if_pos rfl]
  exact OrderedMap.get_set_self _ _ _

/-!
# The publication
-/

/-- What a publication of a file on disk does to the kernel under the contract:
{lit}`staged` holds once it reached the epoch or the files of the place, and
{lit}`published` once it is tracked too. -/
structure Stores (c : Async.Contract Ask.reply Kernel) (d : Disk) (ep : EpochRef)
    (hosted : HostedPlace) (key : Key) (inv staged published : Kernel -> Prop) : Prop where
  stage : hosted.provider ≠ Provider.map -> forall (k : Kernel) (built : Built) source, inv k ->
    k.state ≠ KernelState.closed -> built.Carries key source -> d.Renders hosted key source ->
    c.guar k ((k.stageAll ep (built.changes hosted.name)).record hosted.name key) ∧
      staged ((k.stageAll ep (built.changes hosted.name)).record hosted.name key)
  map : hosted.provider = Provider.map -> forall (k : Kernel) file own, inv k ->
    k.state ≠ KernelState.closed -> d.Renders hosted key file ->
    MapStore.publish hosted.place (k.files hosted.name) key file = Except.ok own ->
    c.guar k ({ k with files := Kernel.setFiles k.files hosted.name own }.record hosted.name key) ∧
      staged ({ k with files := Kernel.setFiles k.files hosted.name own }.record hosted.name key)
  track : forall (k : Kernel) file, staged k ->
    c.guar k (trackSource hosted key file k) ∧ published (trackSource hosted key file k)

section Publication

variable (hc : c.Shared) (hd : FromDisk c d strict)
variable {ep : EpochRef} {inv staged published : Kernel -> Prop}
include hc

/-- What others keep, whatever the function returns. -/
theorem Yields.framed {q : alpha -> Prop} {x : Prog alpha} (h : Yields c q x)
    (hinv : c.Stable inv) :
    Async.Triple c inv x (fun value k => q value ∧ inv k) (fun _ => inv) :=
  Async.triple_weaken (Async.triple_frame hc hinv h) (fun _ hk => ⟨trivial, hk⟩)
    (fun _ _ hend => hend) (fun _ _ hend => hend.2)

omit hc in
theorem triple_alive {f : Unit -> Prog alpha} {post : alpha -> Kernel -> Prop}
    (hf : Async.Triple c (fun k => inv k ∧ k.state ≠ KernelState.closed) (f ()) post
      (fun _ => inv)) : Async.Triple c inv (alive >>= f) post (fun _ => inv) := by
  intro s0 s hguar hs
  show Async.Ends c _ _ (Async.bind f
    (if s.state = KernelState.closed then Async.throw Fault.closed else Async.done ())) s0 s
  split_ifs with hclosed
  · exact ⟨hguar, hs⟩
  · exact hf s0 s hguar ⟨hs, hclosed⟩

include hd

theorem triple_storeShared (hstores : Stores c d ep hosted key inv staged published)
    (hinv : c.Stable inv) (hprovider : hosted.provider ≠ Provider.map) {input : FileInput}
    (hinput : d.Suits hosted key input) :
    Async.Triple c inv (storeShared ep hosted key input) (fun _ => staged) (fun _ => inv) := by
  have hsteady := hc.toSteady
  apply Async.triple_bind ((yields_allocate hsteady hd hinput).framed hc hinv)
  intro placed
  apply Async.triple_pure
  intro hplaced
  cases placed with
  | none => exact Async.triple_throw (fun _ h => h)
  | some data =>
      have hrenders := hplaced data rfl
      have hcarries : Built.Carries key (fileOf input data)
          { allocated := [(EntryKey.ofSource key, fileOf input data)], dropped := [] } := by
        constructor
        · exact ⟨[], rfl, fun entry hmem => by cases hmem⟩
        · intro companion hmem
          cases hmem
      apply triple_alive
      apply Async.triple_weaken _ (fun k hk => hk.1) (fun _ _ h => h) (fun _ _ h => h)
      apply Async.triple_bind
        ((yields_call hsteady (carries_bytecode hsteady hcarries)).framed hc hinv)
      intro compiled
      apply Async.triple_pure
      intro hcompiled
      apply Async.triple_bind
        ((yields_call hsteady (carries_compress hsteady hcompiled)).framed hc hinv)
      intro built
      apply Async.triple_pure
      intro hbuilt
      apply triple_alive
      apply Async.triple_modify hsteady
      intro k hk
      exact hstores.stage hprovider k built _ hk.1 hk.2 hbuilt hrenders

omit hd in
theorem triple_publishMap (hstores : Stores c d ep hosted key inv staged published)
    (hprovider : hosted.provider = Provider.map) {input : FileInput}
    (hinput : d.Suits hosted key input) :
    Async.Triple c (fun k => inv k ∧ k.state ≠ KernelState.closed) (publishMap hosted key input)
      (fun _ => staged) (fun _ => inv) := by
  rcases hinput.map hprovider with ⟨data, hdata⟩
  have hrenders := hinput.memory data hdata
  apply Async.triple_read
  intro k hk
  have hfile : ({ data := input.data.getD []
                  stat := input.stat
                  scriptOptions := input.scriptOptions
                  metadata := input.metadata } : PlaceFile) = fileOf input data := by
    rw [hdata]
    rfl
  dsimp only
  rw [hfile]
  cases hpublish : MapStore.publish hosted.place (k.files hosted.name) key (fileOf input data) with
  | error refusal =>
      apply Async.triple_throw
      intro k' heq
      rw [heq]
      exact hk.1
  | ok own =>
      rcases hstores.map hprovider k _ own hk.1 hk.2 hrenders hpublish with ⟨hguar, hstaged⟩
      apply Async.triple_set hc.toSteady _ (Async.triple_done (fun _ h => h))
      intro k' heq
      rw [heq]
      exact ⟨hguar, hstaged⟩

/-- A publication of a file on disk: all of it, or nothing of it. -/
theorem triple_publishEntry (hstores : Stores c d ep hosted key inv staged published)
    (hinv : c.Stable inv) (hstaged : c.Stable staged) {stats : DiskStat}
    (hstat : d.stat (hosted.pathOf key) = Except.ok stats) :
    Async.Triple c inv (publishEntry ep hosted key (diskFile hosted key stats.stat))
      (fun _ => published) (fun _ => inv) := by
  have hsteady := hc.toSteady
  have htrack : forall file, Async.Triple c staged
      (Async.modify (trackSource hosted key file) : Prog Unit) (fun _ => published)
      (fun _ => inv) :=
    fun file => Async.triple_modify hsteady (fun k hk => hstores.track k file hk)
  apply Async.triple_bind ((yields_call hsteady (yields_input hsteady hd hstat)).framed hc hinv)
  intro canonical
  apply Async.triple_pure
  intro hsuits
  apply triple_alive
  split_ifs with hprovider
  · exact Async.triple_bind (triple_publishMap hc hstores hprovider hsuits)
      (fun _ => htrack _)
  · apply Async.triple_weaken _ (fun k hk => hk.1) (fun _ _ h => h) (fun _ _ h => h)
    have hstored : Async.Triple c inv (call (storeShared ep hosted key canonical))
        (fun _ => staged) (fun _ => inv) :=
      Async.triple_settle hsteady (triple_storeShared hc hd hstores hinv hprovider hsuits)
        (fun _ => hstaged) (fun _ => hinv)
    exact Async.triple_bind hstored (fun _ => htrack _)

end Publication

end SharedMemoryFs.Lifecycle
