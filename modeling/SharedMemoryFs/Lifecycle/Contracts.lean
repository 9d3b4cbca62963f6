import SharedMemoryFs.Lifecycle.EventLoop

/-!
# Contracts of the pipeline

What a contract has to allow for every function of the kernel to keep it: the few
changes a publication, a removal or an epoch makes between two awaits.
-/

namespace SharedMemoryFs.Lifecycle

open Foundation

variable (c : Async.Contract Ask.reply Kernel)

/-- The function keeps the contract and returns values with a property. -/
def Yields (q : alpha -> Prop) (x : Prog alpha) : Prop :=
  Async.Triple c (fun _ => True) x (fun value _ => q value) (fun _ _ => True)

def Keeps (x : Prog alpha) : Prop := Yields c (fun _ => True) x

/-- The contract of code behind a check that the kernel is not closed. -/
def KeepsOpen (x : Prog alpha) : Prop :=
  Async.Triple c (fun k => k.state ≠ KernelState.closed) x (fun _ _ => True)
    (fun _ _ => True)

/-- The contract of code that has just read the kernel. -/
def KeepsAt (k : Kernel) (x : Prog alpha) : Prop :=
  Async.Triple c (fun k' => k' = k) x (fun _ _ => True) (fun _ _ => True)

variable {c} {q : alpha -> Prop}

section Rules

theorem keeps_done (value : alpha) : Keeps c (Async.done value) :=
  Async.triple_done (fun _ _ => trivial)

theorem yields_done {value : alpha} (h : q value) : Yields c q (Async.done value) :=
  Async.triple_done (fun _ _ => h)

theorem yields_throw (error : Fault) : Yields c q (Async.throw error) :=
  Async.triple_throw (fun _ _ => trivial)

theorem keeps_throw (error : Fault) : Keeps c (Async.throw error : Prog alpha) :=
  yields_throw error

theorem Yields.keeps {x : Prog alpha} (h : Yields c q x) : Keeps c x :=
  Async.triple_weaken h (fun _ _ => trivial) (fun _ _ _ => trivial) (fun _ _ _ => trivial)

theorem Keeps.isOpen {x : Prog alpha} (h : Keeps c x) : KeepsOpen c x :=
  Async.triple_weaken h (fun _ _ => trivial) (fun _ _ _ => trivial) (fun _ _ _ => trivial)

theorem Keeps.at {x : Prog alpha} (h : Keeps c x) (k : Kernel) : KeepsAt c k x :=
  Async.triple_weaken h (fun _ _ => trivial) (fun _ _ _ => trivial) (fun _ _ _ => trivial)

theorem KeepsAt.of_open {x : Prog alpha} {k : Kernel} (h : KeepsOpen c x)
    (hopen : k.state ≠ KernelState.closed) : KeepsAt c k x := by
  apply Async.triple_weaken h
  · intro s hs
    rw [hs]
    exact hopen
  · intro _ _ _
    exact trivial
  · intro _ _ _
    exact trivial

theorem yields_ofExcept {result : Except Fault alpha} (h : forall value, q value) :
    Yields c q (Async.ofExcept result) := by
  cases result with
  | ok value => exact yields_done (h value)
  | error error => exact yields_throw error

theorem yields_bind {p : beta -> Prop} {x : Prog beta} {f : beta -> Prog alpha}
    (hx : Yields c p x) (hf : forall value, p value -> Yields c q (f value)) :
    Yields c q (x >>= f) := by
  apply Async.triple_bind hx
  intro value s0 s hguar hp
  exact hf value hp s0 s hguar trivial

theorem keeps_bind {x : Prog beta} {f : beta -> Prog alpha} (hx : Keeps c x)
    (hf : forall value, Yields c q (f value)) : Yields c q (x >>= f) :=
  yields_bind hx (fun value _ => hf value)

theorem keeps_read {f : Kernel -> Prog alpha} (hf : forall k, KeepsAt c k (f k)) :
    Keeps c (Async.read >>= f) :=
  Async.triple_read (fun k _ => hf k)

/-- What follows a check runs on a kernel that is not closed. -/
theorem keeps_alive {f : Unit -> Prog alpha} (hf : KeepsOpen c (f ())) :
    Keeps c (alive >>= f) := by
  intro s0 s hguar _
  show Async.Ends c _ _ (Async.bind f
    (if s.state = KernelState.closed then Async.throw Fault.closed else Async.done ())) s0 s
  split_ifs with hclosed
  · exact ⟨hguar, trivial⟩
  · exact hf s0 s hguar hclosed

theorem yields_alive {f : Unit -> Prog alpha} (hf : Yields c q (f ())) :
    Yields c q (alive >>= f) := by
  intro s0 s hguar _
  show Async.Ends c _ _ (Async.bind f
    (if s.state = KernelState.closed then Async.throw Fault.closed else Async.done ())) s0 s
  split_ifs
  · exact ⟨hguar, trivial⟩
  · exact hf s0 s hguar trivial

theorem yields_cached {f : Unit -> Prog alpha} (hf : Yields c q (f ())) :
    Yields c q (cached >>= f) := by
  intro s0 s hguar _
  show Async.Ends c _ _ (Async.bind f
    (if s.cache.isNone = true then Async.throw Fault.missing else Async.done ())) s0 s
  split_ifs
  · exact ⟨hguar, trivial⟩
  · exact hf s0 s hguar trivial

variable (hc : c.Steady)
include hc

theorem yields_ask {question : Ask} {q : question.reply -> Prop}
    (h : forall answer k, c.answers question answer k -> q answer) :
    Yields c q (Async.ask question) :=
  Async.triple_ask hc c.stable_true (fun answer k _ hanswer => h answer k hanswer)

theorem keeps_ask (question : Ask) : Keeps c (Async.ask question) :=
  yields_ask hc (fun _ _ _ => trivial)

theorem keeps_modify {f : Kernel -> Kernel} (hf : forall k, c.guar k (f k)) :
    Keeps c (Async.modify f : Prog Unit) :=
  Async.triple_modify hc (fun k _ => ⟨hf k, trivial⟩)

theorem keepsOpen_modify {f : Kernel -> Kernel}
    (hf : forall k, k.state ≠ KernelState.closed -> c.guar k (f k)) :
    KeepsOpen c (Async.modify f : Prog Unit) :=
  Async.triple_modify hc (fun k hopen => ⟨hf k hopen, trivial⟩)

theorem keepsAt_set {k k' : Kernel} {x : Prog alpha} (h : c.guar k k') (hx : Keeps c x) :
    KeepsAt c k (Async.set k' x) := by
  apply Async.triple_set hc _ hx
  intro s hs
  rw [hs]
  exact ⟨h, trivial⟩

theorem yields_call {x : Prog alpha} (hx : Yields c q x) : Yields c q (call x) :=
  Async.triple_settle hc hx (fun _ _ _ h _ => h) (fun _ => c.stable_true)

omit hc in
theorem keeps_recover {x : Prog alpha} {f : Fault -> Prog alpha} (hx : Keeps c x)
    (hf : forall error, Keeps c (f error)) : Keeps c (Async.recover f x) :=
  Async.triple_recover hx hf

end Rules

/-!
# What a publication does
-/

/-- Everything allocated or dropped belongs to one source. -/
def Built.Of (key : Key) (built : Built) : Prop :=
  (forall entry, entry ∈ built.allocated -> entry.1.source = key) ∧
    forall companion, companion ∈ built.dropped -> companion.source = key

theorem Built.Of.add {key : Key} {built : Built} (h : built.Of key) {companion : EntryKey}
    (hsource : companion.source = key) (file : PlaceFile) : (built.add companion file).Of key := by
  constructor
  · intro entry hmem
    rcases List.mem_append.mp hmem with hold | hnew
    · exact h.1 entry hold
    · rw [List.mem_singleton.mp hnew]
      exact hsource
  · exact h.2

theorem Built.Of.drop {key : Key} {built : Built} (h : built.Of key) {companion : EntryKey}
    (hsource : companion.source = key) : (built.drop companion).Of key := by
  constructor
  · exact h.1
  · intro dropped hmem
    rcases List.mem_append.mp hmem with hold | hnew
    · exact h.2 dropped hold
    · rw [List.mem_singleton.mp hnew]
      exact hsource

/-- The contract allows what one publication of a source changes. -/
structure Publishes (c : Async.Contract Ask.reply Kernel) (hosted : HostedPlace)
    (key : Key) : Prop where
  stage : forall (k : Kernel) ep (built : Built), k.state ≠ KernelState.closed ->
    built.Of key ->
    c.guar k ((k.stageAll ep (built.changes hosted.name)).record hosted.name key)
  map : forall (k : Kernel) file own, k.state ≠ KernelState.closed ->
    MapStore.publish hosted.place (k.files hosted.name) key file = Except.ok own ->
    c.guar k ({ k with files := Kernel.setFiles k.files hosted.name own }.record hosted.name key)
  track : forall k file, c.guar k (trackSource hosted key file k)
  recheck : forall (k : Kernel), k.state ≠ KernelState.closed ->
    c.guar k (k.scheduleRecheck hosted key)

section Pipeline

variable (hc : c.Steady)
include hc

theorem keeps_rawOf (hosted : HostedPlace) (key : Key) (file : FileInput) :
    Keeps c (rawOf hosted key file) := by
  unfold rawOf
  cases file.data with
  | some data => exact keeps_done data
  | none =>
      apply yields_cached
      apply keeps_bind (keeps_ask hc _)
      intro answer
      cases answer with
      | some raw => exact keeps_done raw
      | none => exact keeps_throw _

theorem keeps_input (hosted : HostedPlace) (key : Key) (file : FileInput) :
    Keeps c (input hosted key file) := by
  unfold input
  cases hosted.place.preparerOf key with
  | some preparer =>
      apply keeps_bind (keeps_rawOf hc hosted key file)
      intro raw
      exact yields_ofExcept (fun _ => trivial)
  | none =>
      simp only
      split_ifs
      · apply keeps_bind (keeps_rawOf hc hosted key file)
        intro raw
        exact keeps_done _
      · exact keeps_done file

theorem keeps_allocate (hosted : HostedPlace) (key : EntryKey) (input : FileInput) :
    Keeps c (allocate hosted key input) := by
  apply yields_cached
  apply keeps_bind (keeps_ask hc _)
  intro placed
  cases input.data with
  | some data => exact keeps_done _
  | none =>
      cases placed.read with
      | some data => exact keeps_done _
      | none => exact keeps_throw _

theorem yields_bytecodeLoop (hosted : HostedPlace) (key : Key) (mtimeMs : Nat)
    {codes : List Place.Code} (hcodes : forall code, code ∈ codes -> code.key.source = key)
    {built : Built} (h : built.Of key) :
    Yields c (Built.Of key) (bytecodeLoop hosted mtimeMs codes built) := by
  induction codes generalizing built with
  | nil => exact yields_done h
  | cons code rest ih =>
      have hrest : forall code, code ∈ rest -> code.key.source = key :=
        fun code hmem => hcodes code (List.mem_cons_of_mem _ hmem)
      have hsource := hcodes code List.mem_cons_self
      unfold bytecodeLoop
      cases code.data with
      | some data =>
          apply keeps_bind (keeps_allocate hc hosted _ _)
          intro placed
          cases placed with
          | some _ => exact ih hrest (h.add hsource _)
          | none =>
              simp only
              split_ifs
              · exact yields_throw _
              · exact ih hrest (h.drop hsource)
      | none =>
          simp only
          split_ifs
          · exact yields_throw _
          · exact ih hrest (h.drop hsource)

theorem yields_bytecode (hosted : HostedPlace) (key : Key) (source : PlaceFile)
    {built : Built} (h : built.Of key) :
    Yields c (Built.Of key) (bytecode hosted key source built) := by
  unfold bytecode
  split_ifs
  · exact yields_done h
  · apply yields_cached
    apply keeps_bind (keeps_ask hc _)
    intro answer
    cases answer with
    | none => exact yields_throw _
    | some bytes =>
        apply yields_bytecodeLoop hc hosted key _ _ h
        intro code hmem
        rcases List.mem_map.mp hmem with ⟨domain, _, heq⟩
        rw [← heq]
        rfl

theorem yields_compressLoop (hosted : HostedPlace) (key : Key) (source : PlaceFile)
    (encoded : List (Encoding × Option Bytes)) {built : Built} (h : built.Of key) :
    Yields c (Built.Of key) (compressLoop hosted key source encoded built) := by
  induction encoded generalizing built with
  | nil => exact yields_done h
  | cons code rest ih =>
      rcases code with ⟨encoding, data?⟩
      cases data? with
      | none => exact ih (h.drop rfl)
      | some data =>
          apply keeps_bind (keeps_allocate hc hosted _ _)
          intro placed
          cases placed with
          | some _ => exact ih (h.add rfl _)
          | none => exact ih (h.drop rfl)

theorem keeps_encoders (hosted : HostedPlace) (key : Key) (bytes : Option Bytes) :
    Keeps c (encoders hosted key bytes) := by
  cases bytes with
  | some _ => exact yields_cached (keeps_ask hc _)
  | none => exact keeps_done _

theorem yields_compress (hosted : HostedPlace) (key : Key) (source : PlaceFile)
    {built : Built} (h : built.Of key) :
    Yields c (Built.Of key) (compress hosted key source built) := by
  apply yields_cached
  split_ifs
  · apply keeps_bind (keeps_ask hc _)
    intro bytes
    apply keeps_bind (keeps_encoders hc hosted key bytes)
    intro encode
    exact yields_alive (yields_compressLoop hc hosted key source _ h)
  · exact yields_done h

theorem keeps_storeShared {hosted : HostedPlace} {key : Key} (hp : Publishes c hosted key)
    (ep : EpochRef) (input : FileInput) : Keeps c (storeShared ep hosted key input) := by
  apply keeps_bind (keeps_allocate hc hosted _ input)
  intro placed
  cases placed with
  | none => exact keeps_throw _
  | some data =>
      apply yields_alive
      have hplaced : Built.Of key
          { allocated := [(EntryKey.ofSource key,
              { data := data
                stat := input.stat
                scriptOptions := input.scriptOptions
                metadata := input.metadata })]
            dropped := [] } := by
        constructor
        · intro entry hmem
          rw [List.mem_singleton.mp hmem]
          rfl
        · intro companion hmem
          cases hmem
      apply yields_bind (yields_call hc (yields_bytecode hc hosted key _ hplaced))
      intro compiled hcompiled
      apply yields_bind (yields_call hc (yields_compress hc hosted key _ hcompiled))
      intro built hbuilt
      apply keeps_alive
      apply keepsOpen_modify hc
      intro k hopen
      exact hp.stage k ep built hopen hbuilt

theorem keepsOpen_publishMap {hosted : HostedPlace} {key : Key} (hp : Publishes c hosted key)
    (input : FileInput) : KeepsOpen c (publishMap hosted key input) := by
  apply Async.triple_read
  intro k hopen
  dsimp only
  cases hpublish : MapStore.publish hosted.place (k.files hosted.name) key _ with
  | error refusal => exact (keeps_throw _).at k
  | ok own => exact keepsAt_set hc (hp.map k _ own hopen hpublish) (keeps_done ())

theorem keeps_publishEntry {hosted : HostedPlace} {key : Key} (hp : Publishes c hosted key)
    (ep : EpochRef) (file : FileInput) : Keeps c (publishEntry ep hosted key file) := by
  have htrack : Keeps c (Async.modify (trackSource hosted key file) : Prog Unit) :=
    keeps_modify hc (fun k => hp.track k file)
  apply keeps_bind (yields_call hc (keeps_input hc hosted key file))
  intro canonical
  apply keeps_alive
  split_ifs
  · apply Async.triple_bind (keepsOpen_publishMap hc hp canonical)
    intro _
    exact htrack
  · apply Keeps.isOpen
    apply keeps_bind (yields_call hc (keeps_storeShared hc hp ep canonical))
    intro _
    exact htrack

end Pipeline

/-!
# What a job of an epoch does
-/

/-- The contract allows what the jobs of an epoch note down. -/
structure Handles (c : Async.Contract Ask.reply Kernel) (hosted : HostedPlace) : Prop where
  mark : forall (k : Kernel) ep key, c.guar k (k.markSeen ep hosted.name key)
  cancel : forall (k : Kernel) key, c.guar k (k.cancelRecheck hosted key)

/-- The contract allows what a deletion of a path takes. -/
def Removes (c : Async.Contract Ask.reply Kernel) (hosted : HostedPlace) (key : Key) : Prop :=
  forall (source : PlaceFiles FileInput) dropped, dropped ∈ Kernel.gone source key ->
    forall (k : Kernel) ep, c.guar k (k.dropSource ep hosted dropped)

/-- What the answers about one path let a refresh of it do. -/
structure Refreshes (c : Async.Contract Ask.reply Kernel) (hosted : HostedPlace) (key : Key) :
    Prop where
  publishes : hosted.scanExt.all (fun ext => ext.contains (hosted.place.fileExt key)) = true ->
    forall (stats : DiskStat) (k : Kernel), c.answers (Ask.stat hosted key) (some stats) k ->
      stats.kind = DiskKind.file -> Publishes c hosted key
  removes : forall k, c.answers (Ask.stat hosted key) none k -> Removes c hosted key

/-- A source the watcher keeps track of. -/
def Kernel.Tracks (k : Kernel) (hosted : HostedPlace) (key : Key) : Prop :=
  (k.sources hosted.name).any (fun source => source.hasSource key) = true

/-- What the answers about one path let a rescan of it publish, as long as
{lit}`inv` holds. -/
def Rescans (c : Async.Contract Ask.reply Kernel) (inv : Kernel -> Prop) (hosted : HostedPlace)
    (key : Key) : Prop :=
  forall (files : List (Key × FileInput)) (k : Kernel),
    c.answers (Ask.scan hosted key) files k ->
    forall file, file ∈ files -> forall k', inv k' -> ¬ k'.Tracks hosted file.1 ->
      Publishes c hosted file.1

/-- The contract allows what one event does. -/
def Allows (c : Async.Contract Ask.reply Kernel) (inv : Kernel -> Prop) (hosted : HostedPlace)
    (key : Key) : Change -> Prop
  | Change.change => Refreshes c hosted key
  | Change.scan => Rescans c inv hosted key
  | Change.delete => Refreshes c hosted key ∧ Rescans c inv hosted key

/-- The contract of a function that starts where {lit}`inv` holds. -/
def KeepsFrom (c : Async.Contract Ask.reply Kernel) (inv : Kernel -> Prop) (x : Prog alpha) :
    Prop :=
  Async.Triple c inv x (fun _ _ => True) (fun _ _ => True)

theorem Keeps.from {x : Prog alpha} (h : Keeps c x) (inv : Kernel -> Prop) :
    KeepsFrom c inv x :=
  Async.triple_weaken h (fun _ _ => trivial) (fun _ _ _ => trivial) (fun _ _ _ => trivial)

section Jobs

variable (hc : c.Shared) {inv : Kernel -> Prop} (hinv : c.Stable inv)
variable {hosted : HostedPlace} (hh : Handles c hosted)

/-- What others keep still holds after awaiting one of the kernel's functions. -/
theorem keepsFrom_call {x : Prog alpha} {f : alpha -> Prog beta} (hc : c.Shared)
    (hinv : c.Stable inv) (hx : Keeps c x) (hf : forall value, KeepsFrom c inv (f value)) :
    KeepsFrom c inv (call x >>= f) := by
  have hframed : Async.Triple c (fun k => True ∧ inv k) (call x)
      (fun _ k => True ∧ inv k) (fun _ k => True ∧ inv k) := by
    have hstable : c.Stable (fun k => True ∧ inv k) :=
      fun k k' h hrely => ⟨trivial, hinv k k' h.2 hrely⟩
    exact Async.triple_settle hc.toSteady (Async.triple_frame hc hinv hx)
      (fun _ => hstable) (fun _ => hstable)
  have hcall : Async.Triple c inv (call x) (fun _ => inv) (fun _ _ => True) :=
    Async.triple_weaken hframed (fun _ h => ⟨trivial, h⟩) (fun _ _ h => h.2)
      (fun _ _ _ => trivial)
  exact Async.triple_bind hcall hf

theorem keepsFrom_ask {question : Ask} {f : question.reply -> Prog alpha} (hc : c.Shared)
    (hinv : c.Stable inv)
    (hf : forall answer k, c.answers question answer k -> KeepsFrom c inv (f answer)) :
    KeepsFrom c inv (Async.ask question >>= f) := by
  intro s0 s hguar hs
  constructor
  · exact hguar
  · intro s' answer hrely hanswer
    exact hf answer s' hanswer s' s' (hc.refl s') (hinv s s' hs hrely)

include hc hh

theorem keeps_unpublish {key : Key} (hremoves : Removes c hosted key) (ep : EpochRef) :
    Keeps c (unpublish ep hosted key) := by
  apply keeps_read
  intro k
  cases k.sources hosted.name with
  | none => exact (keeps_throw _).at k
  | some source =>
      apply keepsAt_set hc.toSteady _ (keeps_done ())
      have hdropped (keys : List Key)
          (hkeys : forall dropped, dropped ∈ keys -> dropped ∈ Kernel.gone source key) :
          c.guar k (keys.foldl (Kernel.dropSource ep hosted) k) := by
        induction keys using List.reverseRecOn with
        | nil => exact hc.refl k
        | append_singleton rest dropped ih =>
            rw [List.foldl_append]
            have hrest := ih (fun dropped hmem => hkeys dropped (List.mem_append_left _ hmem))
            have hlast := hkeys dropped (List.mem_append_right _ List.mem_cons_self)
            exact hc.trans _ _ _ hrest (hremoves source dropped hlast _ ep)
      exact hc.trans _ _ _ (hdropped _ (fun _ hmem => hmem)) (hh.cancel _ key)

theorem keeps_publish {key : Key} (hp : Publishes c hosted key) (ep : EpochRef)
    (file : FileInput) (retry : Bool) : Keeps c (publish ep hosted key file retry) := by
  have hfailed : Keeps c (publishFailed hosted key retry) := by
    apply keeps_read
    intro k
    split_ifs with hclosed
    · exact (keeps_done ()).at k
    · exact keepsAt_set hc.toSteady (hp.recheck k hclosed) (keeps_done ())
    · exact (keeps_done ()).at k
  apply keeps_read
  intro k
  split_ifs
  · exact (keeps_done ()).at k
  · exact keepsAt_set hc.toSteady (hh.mark k ep key)
      (keeps_recover (yields_call hc.toSteady (keeps_publishEntry hc.toSteady hp ep file))
        (fun _ => hfailed))

include hinv in
theorem keepsFrom_publishNew {files : List (Key × FileInput)}
    (hp : forall file, file ∈ files -> forall k, inv k -> ¬ k.Tracks hosted file.1 ->
      Publishes c hosted file.1) (ep : EpochRef) :
    KeepsFrom c inv (publishNew ep hosted files) := by
  induction files with
  | nil => exact (keeps_done ()).from inv
  | cons file rest ih =>
      have hrest := ih (fun file hmem => hp file (List.mem_cons_of_mem _ hmem))
      apply Async.triple_read
      intro k hk
      have hat : forall k', k' = k -> inv k' := by
        intro k' heq
        rw [heq]
        exact hk
      split_ifs with htracked
      · exact Async.triple_weaken hrest hat (fun _ _ _ => trivial) (fun _ _ _ => trivial)
      · have hfirst := keeps_publish hc hh (hp file List.mem_cons_self k hk htracked) ep file.2 true
        exact Async.triple_weaken (keepsFrom_call hc hinv hfirst (fun _ => hrest)) hat
          (fun _ _ _ => trivial) (fun _ _ _ => trivial)

include hinv in
theorem keepsFrom_rescan {key : Key} (hrescans : Rescans c inv hosted key) (ep : EpochRef) :
    KeepsFrom c inv (rescan ep hosted key) := by
  apply keepsFrom_ask hc hinv
  intro files k hanswer
  exact keepsFrom_publishNew hc hinv hh (hrescans files k hanswer) ep

theorem keeps_refresh {key : Key} (hrefreshes : Refreshes c hosted key) (ep : EpochRef)
    (retry : Bool) : Keeps c (refresh ep hosted key retry) := by
  have hask : Yields c
      (fun answer : Option DiskStat =>
        exists k, c.answers (Ask.stat hosted key) answer k)
      (Async.ask (Ask.stat hosted key)) :=
    yields_ask hc.toSteady (fun answer k hanswer => ⟨k, hanswer⟩)
  unfold refresh
  split_ifs with hext
  · apply yields_bind hask
    intro answer hex
    rcases hex with ⟨k, hanswer⟩
    cases answer with
    | none => exact keeps_unpublish hc hh (hrefreshes.removes k hanswer) ep
    | some stats =>
        simp only
        split_ifs with hkind
        · exact yields_call hc.toSteady
            (keeps_publish hc hh (hrefreshes.publishes hext stats k hanswer hkind) ep _ retry)
        · exact keeps_done ()
  · exact keeps_done ()

include hinv in
theorem keepsFrom_remove {key : Key} (hrefreshes : Refreshes c hosted key)
    (hrescans : Rescans c inv hosted key) (ep : EpochRef) :
    KeepsFrom c inv (remove ep hosted key) := by
  apply keepsFrom_ask hc hinv
  intro answer k hanswer
  cases answer with
  | none => exact (keeps_unpublish hc hh (hrefreshes.removes k hanswer) ep).from inv
  | some stats =>
      simp only
      split_ifs
      · exact Async.triple_settle hc.toSteady (keepsFrom_rescan hc hinv hh hrescans ep)
          (fun _ => c.stable_true) (fun _ => c.stable_true)
      · exact Keeps.from (yields_call hc.toSteady (keeps_refresh hc hh hrefreshes ep true)) inv

include hinv in
theorem keepsFrom_job {key : Key} {event : Change} (h : Allows c inv hosted key event)
    (ep : EpochRef) : KeepsFrom c inv (job ep hosted key event) := by
  cases event with
  | change => exact (keeps_refresh hc hh h ep true).from inv
  | scan => exact keepsFrom_rescan hc hinv hh h ep
  | delete => exact keepsFrom_remove hc hinv hh h.1 h.2 ep

end Jobs

/-- The contract allows opening and committing epochs. -/
structure Commits (c : Async.Contract Ask.reply Kernel) : Prop where
  openEpoch : forall k : Kernel, c.guar k k.openEpoch
  commit : forall (k : Kernel) index ep, k.state ≠ KernelState.closed ->
    k.cache = some index -> c.guar k (k.commit index (k.epoch ep).changes.entries)

section Commits

variable (hc : c.Shared) (hcommits : Commits c)
include hc hcommits

theorem keeps_newEpoch : Keeps c newEpoch := by
  apply keeps_read
  intro k
  exact keepsAt_set hc.toSteady (hcommits.openEpoch k) (keeps_done _)

theorem keeps_flush (ep : EpochRef) : Keeps c (flush ep) := by
  apply keeps_read
  intro k
  dsimp only
  by_cases hclosed : k.state = KernelState.closed
  · rw [if_pos hclosed]
    exact (keeps_done ()).at k
  · rw [if_neg hclosed]
    cases hcache : k.cache with
    | some index => exact keepsAt_set hc.toSteady (hcommits.commit k index ep hclosed hcache) (keeps_done ())
    | none =>
        simp only
        split_ifs
        · exact (keeps_done ()).at k
        · exact (keeps_throw _).at k

theorem keeps_recheck {hosted : HostedPlace} (hh : Handles c hosted) {key : Key}
    (hrefreshes : Refreshes c hosted key) : Keeps c (recheck hosted key) := by
  apply keeps_bind (keeps_newEpoch hc hcommits)
  intro ep
  apply keeps_bind (yields_call hc.toSteady (keeps_refresh hc hh hrefreshes ep false))
  intro _
  exact keeps_flush hc hcommits ep

end Commits

/-!
# Steps of the event loop

A contract kept by every function in flight, whatever it may expect of the others.
-/

/-- Every function in flight keeps the contract when it is resumed, and so does every
publication still queued. -/
structure Runtime.Sound (c : Async.Contract Ask.reply Kernel) (r : Runtime) : Prop where
  tasks : forall id task, r.tasks.get id = some task ->
    forall answer k, c.rely r.kernel k -> c.answers task.question answer k ->
      Async.Ends c (fun _ _ => True) (fun _ _ => True) (task.next answer) k k
  queue : forall item, item ∈ r.queue -> Publishes c item.1 item.2.1

/-- Steps that are not those of {lit}`initialize`. -/
structure Runtime.Moves (c : Async.Contract Ask.reply Kernel) (r r' : Runtime) : Prop where
  kernel : c.guar r.kernel r'.kernel
  init : r'.init = r.init
  sound : r'.Sound c

/-- The contract allows what a task of the watch queue does. -/
def Serial.Allowed (c : Async.Contract Ask.reply Kernel) (inv : Kernel -> Prop) (task : Serial) :
    Prop :=
  match task with
  | Serial.epoch events => forall event, event ∈ events ->
      Handles c event.1 ∧ Allows c inv event.1 event.2.1 event.2.2
  | Serial.recheck hosted key => Handles c hosted ∧ Refreshes c hosted key

section Steps

variable (hc : c.Shared)

namespace Runtime.Moves

theorem trans (hc : c.Shared) {r r' r'' : Runtime} (h : r.Moves c r') (h' : r'.Moves c r'') :
    r.Moves c r'' :=
  ⟨hc.trans _ _ _ h.kernel h'.kernel, h'.init.trans h.init, h'.sound⟩

include hc in
theorem refl {r : Runtime} (h : r.Sound c) : r.Moves c r := ⟨hc.refl _, rfl, h⟩

include hc in
/-- Only the kernel, the tasks and the queue matter. -/
theorem of_same {r r' : Runtime} (h : r.Sound c) (hkernel : r'.kernel = r.kernel)
    (hinit : r'.init = r.init) (htasks : r'.tasks = r.tasks)
    (hqueue : forall item, item ∈ r'.queue -> item ∈ r.queue) : r.Moves c r' := by
  constructor
  · rw [hkernel]
    exact hc.refl _
  · exact hinit
  · constructor
    · rw [htasks, hkernel]
      exact h.tasks
    · intro item hmem
      exact h.queue item (hqueue item hmem)

include hc in
theorem setKernel {r : Runtime} (h : r.Sound c) {k : Kernel} (hk : c.guar r.kernel k) :
    r.Moves c (r.setKernel k) := by
  constructor
  · exact hk
  · rfl
  · constructor
    · intro id task hget answer k' hrely
      exact h.tasks id task hget answer k' (hc.through _ _ _ (hc.gives _ _ hk) hrely)
    · exact h.queue

include hc in
theorem suspend {r : Runtime} (h : r.Sound c) {question : Ask}
    {next : question.reply -> Prog Unit}
    (hnext : forall answer k, c.rely r.kernel k -> c.answers question answer k ->
      Async.Ends c (fun _ _ => True) (fun _ _ => True) (next answer) k k) (role : Role) :
    r.Moves c (r.suspend role question next) := by
  constructor
  · exact hc.refl _
  · rfl
  · constructor
    · intro id task hget
      by_cases hid : id = r.nextTask
      · rw [hid] at hget
        have heq := (OrderedMap.get_set_self r.tasks r.nextTask _).symm.trans hget
        cases heq
        exact hnext
      · exact h.tasks id task ((OrderedMap.get_set_ne r.tasks _ hid).symm.trans hget)
    · exact h.queue

include hc in
theorem delete {r : Runtime} (h : r.Sound c) (id : Nat) :
    r.Moves c { r with tasks := r.tasks.delete id } := by
  constructor
  · exact hc.refl _
  · rfl
  · constructor
    · intro id' task hget
      by_cases hid : id' = id
      · rw [hid] at hget
        cases (OrderedMap.get_delete_self r.tasks id).symm.trans hget
      · exact h.tasks id' task ((OrderedMap.get_delete_ne r.tasks hid).symm.trans hget)
    · exact h.queue

end Runtime.Moves

/-- How a function leaves the kernel, and itself. -/
theorem run_keeps {x : Prog Unit} {k : Kernel}
    (hx : Async.Ends c (fun _ _ => True) (fun _ _ => True) x k k) :
    match Async.run x k with
    | (k', Paused.returned _) => c.guar k k'
    | (k', Paused.threw _) => c.guar k k'
    | (k', Paused.waiting question next) =>
        c.guar k k' ∧ forall answer k, c.rely k' k -> c.answers question answer k ->
          Async.Ends c (fun _ _ => True) (fun _ _ => True) (next answer) k k := by
  have h := Async.meets_run hx
  revert h
  cases Async.run x k with
  | mk k' paused =>
      intro h
      cases paused with
      | returned value => exact h.1
      | threw error => exact h.1
      | waiting question next =>
          exact ⟨h.1, fun answer k hrely hanswer => h.2 k answer hrely hanswer⟩

include hc

theorem KeepsFrom.ends {inv : Kernel -> Prop} {x : Prog Unit} (h : KeepsFrom c inv x)
    {k : Kernel} (hk : inv k) :
    Async.Ends c (fun _ _ => True) (fun _ _ => True) x k k := h k k (hc.refl k) hk

theorem Keeps.ends {x : Prog Unit} (h : Keeps c x) (k : Kernel) :
    Async.Ends c (fun _ _ => True) (fun _ _ => True) x k k := h k k (hc.refl k) trivial

namespace Runtime.Moves

theorem feed (ep : EpochRef) (queue : List (HostedPlace × Key × FileInput)) {r : Runtime}
    (h : r.Sound c) (hqueue : forall item, item ∈ queue -> item ∈ r.queue) :
    r.Moves c (Runtime.feed ep queue r) := by
  induction queue generalizing r with
  | nil => exact of_same hc h rfl rfl rfl hqueue
  | cons item rest ih =>
      rcases item with ⟨hosted, key, file⟩
      have hrest : forall item, item ∈ rest -> item ∈ r.queue :=
        fun item hmem => hqueue item (List.mem_cons_of_mem _ hmem)
      have hitem := h.queue (hosted, key, file) (hqueue _ List.mem_cons_self)
      have hrun := run_keeps ((keeps_publishEntry hc.toSteady hitem ep file).ends hc r.kernel)
      unfold Runtime.feed
      revert hrun
      cases Async.run (publishEntry ep hosted key file) r.kernel with
      | mk k paused =>
          intro hrun
          cases paused with
          | returned value =>
              have hset := setKernel hc h hrun
              exact hset.trans hc (ih hset.sound hrest)
          | threw error =>
              have hset := setKernel hc h hrun
              exact hset.trans hc (of_same hc hset.sound rfl rfl rfl hrest)
          | waiting question next =>
              have hset := setKernel hc h hrun.1
              have hqueued : r.Moves c { r.setKernel k with queue := rest } :=
                hset.trans hc (of_same hc hset.sound rfl rfl rfl hrest)
              exact hqueued.trans hc (suspend hc hqueued.sound hrun.2 _)

theorem ended {r : Runtime} (h : r.Sound c) (ok : Bool) (role : Role) :
    r.Moves c (r.ended ok role) := by
  cases role with
  | entry ep =>
      unfold Runtime.ended
      simp only
      split_ifs
      · exact refl hc h
      · exact feed hc ep r.queue h (fun _ hmem => hmem)
      · exact of_same hc h rfl rfl rfl (fun _ hmem => hmem)
  | job ep => exact refl hc h
  | recheck => exact of_same hc h rfl rfl rfl (fun _ hmem => hmem)
  | mutation => exact refl hc h

theorem runTask {r : Runtime} (h : r.Sound c) (role : Role) {x : Prog Unit}
    (hx : Async.Ends c (fun _ _ => True) (fun _ _ => True) x r.kernel r.kernel) :
    r.Moves c (r.runTask role x) := by
  have hrun := run_keeps hx
  unfold Runtime.runTask
  revert hrun
  cases Async.run x r.kernel with
  | mk k paused =>
      intro hrun
      cases paused with
      | returned value =>
          have hset := setKernel hc h hrun
          exact hset.trans hc (ended hc hset.sound true role)
      | threw error =>
          have hset := setKernel hc h hrun
          exact hset.trans hc (ended hc hset.sound false role)
      | waiting question next =>
          have hset := setKernel hc h hrun.1
          exact hset.trans hc (suspend hc hset.sound hrun.2 role)

theorem resume {r : Runtime} (h : r.Sound c) {id : Nat} {task : Suspended}
    {answer : task.question.reply} (hget : r.tasks.get id = some task)
    (hanswer : c.answers task.question answer r.kernel) :
    r.Moves c (r.resume id task answer) := by
  have hdelete := delete hc h id
  exact hdelete.trans hc (runTask hc hdelete.sound task.role
    (h.tasks id task hget answer r.kernel (hc.gives _ _ (hc.refl _)) hanswer))

theorem startWorkers (ep : EpochRef) (n : Nat) {r : Runtime} (h : r.Sound c) :
    r.Moves c (Runtime.startWorkers ep n r) := by
  induction n generalizing r with
  | zero => exact refl hc h
  | succ n ih =>
      unfold Runtime.startWorkers
      split_ifs
      · exact ih h
      · have hfeed := feed hc ep r.queue h (fun _ hmem => hmem)
        exact hfeed.trans hc (ih hfeed.sound)

theorem publishAll (config : Config) (ep : EpochRef) {hosted : HostedPlace}
    {files : List (Key × FileInput)} {r : Runtime} (h : r.Sound c)
    (hfiles : forall file, file ∈ files -> Publishes c hosted file.1) :
    r.Moves c (Runtime.publishAll config ep hosted files r) := by
  have hqueued (queue : List (Key × FileInput)) (hqueue : forall file, file ∈ queue -> file ∈ files) :
      r.Moves c { r with queue := queue.map (fun file => (hosted, file)), failed := false } := by
    constructor
    · exact hc.refl _
    · rfl
    · constructor
      · exact h.tasks
      · intro item hmem
        rcases List.mem_map.mp hmem with ⟨file, hfile, heq⟩
        rw [← heq]
        exact hfiles file (hqueue file hfile)
  have hsorted := hqueued (files.insertionSort (fun a b => b.2.stat.size ≤ a.2.stat.size))
    (fun file hmem => (List.mem_insertionSort _).mp hmem)
  exact hsorted.trans hc (startWorkers hc ep _ hsorted.sound)

variable {inv : Kernel -> Prop} (hinv : c.Stable inv)
include hinv

theorem startJob (ep : EpochRef) {r : Runtime} (h : r.Sound c) (hr : inv r.kernel)
    {event : HostedPlace × Key × Change} (hh : Handles c event.1)
    (hallows : Allows c inv event.1 event.2.1 event.2.2) :
    r.Moves c (Runtime.startJob ep r event) := by
  unfold Runtime.startJob
  split_ifs
  · exact runTask hc h _ ((keepsFrom_job hc hinv hh hallows ep).ends hc hr)
  · exact refl hc h

theorem startJobs (ep : EpochRef) (events : List (HostedPlace × Key × Change)) {r : Runtime}
    (h : r.Sound c) (hr : inv r.kernel)
    (hevents : forall event, event ∈ events ->
      Handles c event.1 ∧ Allows c inv event.1 event.2.1 event.2.2) :
    r.Moves c (events.foldl (Runtime.startJob ep) r) := by
  induction events generalizing r with
  | nil => exact refl hc h
  | cons event rest ih =>
      rcases hevents event List.mem_cons_self with ⟨hh, hallows⟩
      have hfirst := startJob hc hinv ep h hr hh hallows
      have hkept := hinv _ _ hr (hc.gives _ _ hfirst.kernel)
      exact hfirst.trans hc (ih hfirst.sound hkept
        (fun event hmem => hevents event (List.mem_cons_of_mem _ hmem)))

theorem startSerial (hcommits : Commits c) {r : Runtime} (h : r.Sound c) (hr : inv r.kernel)
    {task : Serial} (htask : task.Allowed c inv) : r.Moves c (r.startSerial task) := by
  cases task with
  | epoch events =>
      have hset := setKernel hc h (hcommits.openEpoch r.kernel)
      have hopened : r.Moves c
          { r.setKernel r.kernel.openEpoch with
            running := some (Running.epoch r.kernel.nextEpoch) } :=
        hset.trans hc (of_same hc hset.sound rfl rfl rfl (fun _ hmem => hmem))
      have hkept := hinv _ _ hr (hc.gives _ _ hopened.kernel)
      exact hopened.trans hc (startJobs hc hinv _ _ hopened.sound hkept htask)
  | recheck hosted key =>
      have hrunning : r.Moves c { r with running := some Running.recheck } :=
        of_same hc h rfl rfl rfl (fun _ hmem => hmem)
      exact hrunning.trans hc (runTask hc hrunning.sound _
        ((keeps_recheck hc hcommits htask.1 htask.2).ends hc _))

theorem serialTurn (hcommits : Commits c) {r : Runtime} (h : r.Sound c) (hr : inv r.kernel)
    {task : Serial} (rest : List Serial) (htask : task.Allowed c inv) :
    r.Moves c (r.serialTurn task rest) := by
  have hturned : r.Moves c { r with serial := rest } :=
    of_same hc h rfl rfl rfl (fun _ hmem => hmem)
  unfold Runtime.serialTurn
  simp only
  split_ifs
  · exact hturned.trans hc (startSerial hc hinv hcommits hturned.sound hr htask)
  · exact hturned

omit hinv

theorem endEpoch (hcommits : Commits c) {r : Runtime} (h : r.Sound c) (ep : EpochRef) :
    r.Moves c (r.endEpoch ep) := by
  have hrun := run_keeps ((keeps_flush hc hcommits ep).ends hc r.kernel)
  have hguar : c.guar r.kernel (Async.run (flush ep) r.kernel).1 := by
    revert hrun
    cases Async.run (flush ep) r.kernel with
    | mk k paused =>
        intro hrun
        cases paused with
        | returned value => exact hrun
        | threw error => exact hrun
        | waiting question next => exact hrun.1
  have hset := setKernel hc h hguar
  exact hset.trans hc (of_same hc hset.sound rfl rfl rfl (fun _ hmem => hmem))

theorem fire {r : Runtime} (h : r.Sound c) {hosted : HostedPlace} (hh : Handles c hosted)
    (key : Key) : r.Moves c (r.fire hosted key) := by
  have hset := setKernel hc h (hh.cancel r.kernel key)
  exact hset.trans hc (of_same hc hset.sound rfl rfl rfl (fun _ hmem => hmem))

end Runtime.Moves

end Steps

end SharedMemoryFs.Lifecycle
