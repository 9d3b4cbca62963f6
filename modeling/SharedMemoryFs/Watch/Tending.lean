import SharedMemoryFs.Watch.Epoch

/-!
# What an epoch does for one key

Three contracts of everything in flight, each from the side of one key: of a file that is
there, of a file that is not, and of a path that leads to something else.
-/

namespace SharedMemoryFs.Lifecycle

open Foundation

variable {config : Config} {strict : Bool} {d : Disk}
variable {ep : EpochRef} {hosted : HostedPlace} {key : Key}

/-!
# Jobs for other keys
-/

section Leaving

variable (config ep hosted key)

/-- The contract of a function that leaves the key alone. -/
def leaving : Async.Contract Ask.reply Kernel :=
  { guar := Kernel.Leaves ep hosted key
    rely := fun _ _ => True
    answers := fun question answer _ => question.Regular config answer }

variable {config ep hosted key}

theorem leaving_shared : (leaving config ep hosted key).Shared := by
  constructor
  · exact ⟨Kernel.Leaves.refl, fun _ _ _ => Kernel.Leaves.trans⟩
  · intro _ _ _
    exact trivial
  · intro _ _ _ _ _
    exact trivial

section Others

variable {other : HostedPlace} {j : Key} (hne : other.name = hosted.name -> j ≠ key)
include hne

theorem leaving_publishes (hj : BelowRoot j) : Publishes (leaving config ep hosted key) other j := by
  constructor
  · intro k ep' built _ hbuilt
    exact (leaves_stage hne k ep' hbuilt).trans (Kernel.Leaves.record _ other.name j)
  · intro k file own _ hpublish
    have hown : forall key', key' ≠ j -> own.get (EntryKey.ofSource key') =
        (k.files other.name).get (EntryKey.ofSource key') := by
      intro key' hkey
      rw [MapStore.get_publish_source hpublish, if_neg hkey]
    exact (leaves_files hne k hown).trans (Kernel.Leaves.record _ other.name j)
  · exact fun k file => leaves_track hne hj k file
  · exact fun k _ => leaves_schedule hne hj k

theorem leaving_publish (hj : BelowRoot j) (ep' : EpochRef) (file : FileInput) (retry : Bool) :
    Async.Triple (leaving config ep hosted key) (fun _ => True) (publish ep' other j file retry)
      (fun _ _ => True) (fun _ _ => False) := by
  have hc : (leaving config ep hosted key).Shared := leaving_shared
  have hp : Publishes (leaving config ep hosted key) other j := leaving_publishes hne hj
  have hfailed : Async.Triple (leaving config ep hosted key) (fun _ => True)
      (publishFailed other j retry) (fun _ _ => True) (fun _ _ => False) := by
    have hdone : Async.Triple (leaving config ep hosted key) (fun _ => True)
        (Async.done () : Prog Unit) (fun _ _ => True) (fun _ _ => False) :=
      Async.triple_done (fun _ _ => trivial)
    apply Async.triple_read
    intro k _
    split_ifs with hclosed
    · exact Async.triple_done (fun _ _ => trivial)
    · apply Async.triple_set hc.toSteady _ hdone
      intro k' heq
      rw [heq]
      exact ⟨hp.recheck k hclosed, trivial⟩
    · exact Async.triple_done (fun _ _ => trivial)
  have hentry : Async.Triple (leaving config ep hosted key) (fun _ => True)
      (Async.recover (fun _ => publishFailed other j retry)
        (call (publishEntry ep' other j file))) (fun _ _ => True) (fun _ _ => False) := by
    apply Async.triple_recover (yields_call hc.toSteady (keeps_publishEntry hc.toSteady hp ep' file))
    exact fun _ => Async.triple_weaken hfailed (fun _ _ => trivial) (fun _ _ h => h)
      (fun _ _ h => h)
  apply Async.triple_read
  intro k _
  split_ifs
  · exact Async.triple_done (fun _ _ => trivial)
  · apply Async.triple_set hc.toSteady _ hentry
    intro k' heq
    rw [heq]
    exact ⟨leaves_mark hne k ep', trivial⟩

end Others

theorem leaves_dropped {q : Key} (keys : List Key)
    (hkeys : forall dropped, dropped ∈ keys -> dropped ≠ key) (hq : q ≠ key) (k : Kernel)
    (ep' : EpochRef) :
    Kernel.Leaves ep hosted key k
      ((keys.foldl (Kernel.dropSource ep' hosted) k).cancelRecheck hosted q) := by
  have hfold : Kernel.Leaves ep hosted key k (keys.foldl (Kernel.dropSource ep' hosted) k) := by
    induction keys generalizing k with
    | nil => exact Kernel.Leaves.refl k
    | cons dropped rest ih =>
        have hfirst : Kernel.Leaves ep hosted key k (k.dropSource ep' hosted dropped) :=
          leaves_drop (fun _ => hkeys dropped List.mem_cons_self) k ep'
        exact hfirst.trans (ih (fun dropped hmem => hkeys dropped (List.mem_cons_of_mem _ hmem)) _)
  exact hfold.trans (leaves_cancel (fun _ => hq) _)

theorem leaving_unpublish {q : Key} (hq : q ≠ key)
    (hgone : forall (source : PlaceFiles FileInput) dropped, dropped ∈ Kernel.gone source q ->
      dropped ≠ key) (ep' : EpochRef) :
    Keeps (leaving config ep hosted key) (unpublish ep' hosted q) := by
  have hc : (leaving config ep hosted key).Shared := leaving_shared
  apply keeps_read
  intro k
  cases k.sources hosted.name with
  | none => exact (keeps_throw _).at k
  | some source =>
      exact keepsAt_set hc.toSteady (leaves_dropped _ (hgone source) hq k ep') (keeps_done ())

/-- The jobs of other places. -/
theorem leaving_job {other : HostedPlace} (hname : other.name ≠ hosted.name)
    (hmem : other ∈ config.places) {q : Key} (hq : OfNames q) (event : Change) (ep' : EpochRef) :
    Keeps (leaving config ep hosted key) (job ep' other q event) := by
  have hc : (leaving config ep hosted key).Shared := leaving_shared
  have hne : forall j, other.name = hosted.name -> j ≠ key := fun j heq => absurd heq hname
  have hhandles : Handles (leaving config ep hosted key) other :=
    ⟨fun k ep' j => leaves_mark (hne j) k ep', fun k j => leaves_cancel (hne j) k⟩
  have hrefreshes : Refreshes (leaving config ep hosted key) other q := by
    constructor
    · intro _ stats _ hanswer hkind
      exact leaving_publishes (hne q) (hq.below (fun hnil => hanswer hmem hnil stats rfl hkind))
    · intro _ _ source dropped _ k ep'
      exact leaves_drop (hne dropped) k ep'
  have hrescans : Rescans (leaving config ep hosted key) (fun _ => True) other q :=
    fun _ _ hanswer file hfile _ _ _ => leaving_publishes (hne file.1) (hanswer hq file hfile)
  have hallows : Allows (leaving config ep hosted key) (fun _ => True) other q event := by
    cases event with
    | change => exact hrefreshes
    | scan => exact hrescans
    | delete => exact ⟨hrefreshes, hrescans⟩
  exact keepsFrom_job hc (leaving config ep hosted key).stable_true hhandles hallows ep'

/-- A contract that lets others leave the key alone. -/
structure Accepts (c : Async.Contract Ask.reply Kernel) (duty : Async.Duty Kernel)
    (config : Config) (ep : EpochRef) (hosted : HostedPlace) (key : Key) : Prop where
  shared : c.Shared
  met : c.Stable duty.met
  guar : forall k k', Kernel.Leaves ep hosted key k k' -> c.guar k k'
  taken : forall k k', Kernel.Leaves ep hosted key k k' -> duty.taken k' -> duty.taken k
  answers : forall question answer k, c.answers question answer k -> question.Regular config answer

theorem Accepts.serve {c : Async.Contract Ask.reply Kernel} {duty : Async.Duty Kernel}
    (h : Accepts c duty config ep hosted key) {inv : Kernel -> Prop} (hinv : c.Stable inv)
    {x : Prog alpha} {fail : Fault -> Kernel -> Prop}
    (hx : Async.Triple (leaving config ep hosted key) (fun _ => True) x (fun _ _ => True) fail) :
    Async.Serve c duty inv x (fun _ => inv) (fun error k => fail error k ∧ inv k) := by
  have huntaken : forall k, True -> Async.Ends (c.untaken duty) (fun _ _ => True) fail x k k := by
    intro k _
    apply Async.ends_mono _ _ _ (hx k k (Kernel.Leaves.refl k) trivial)
    · exact fun k k' hleaves => ⟨h.guar k k' hleaves, h.taken k k' hleaves⟩
    · exact fun _ _ _ => trivial
    · exact fun question answer k hanswer => h.answers question answer k hanswer
  have hserve := Async.serve_of_untaken h.shared h.met huntaken
  apply Async.serve_weaken (Async.serve_frame h.shared h.met hinv hserve) (fun _ hk => ⟨trivial, hk⟩)
  · exact fun _ _ hend => hend.2
  · exact fun _ _ hend => hend

end Leaving

/-!
# A file that is there
-/

/-- The flush of the epoch publishes the canonical form of the file on the disk. -/
def Kernel.Fresh (k : Kernel) (d : Disk) (ep : EpochRef) (hosted : HostedPlace) (key : Key) :
    Prop :=
  exists file, k.upcoming ep hosted key = some file ∧ d.Renders hosted key file

/-- Nothing of the key goes but for what the disk has instead. -/
structure Kernel.Tends (d : Disk) (ep : EpochRef) (hosted : HostedPlace) (key : Key)
    (k k' : Kernel) : Prop where
  works : k.Works k'
  tracks : k.Tracks hosted key -> k'.Tracks hosted key
  tracked : k'.Tracks hosted key -> k.Tracks hosted key ∨ k'.Marked ep hosted key
  marked : k.Marked ep hosted key -> k'.Marked ep hosted key
  upcoming : k'.upcoming ep hosted key = k.upcoming ep hosted key ∨ k'.Fresh d ep hosted key
  unstaged : hosted.provider = Provider.map ->
    (k'.epoch ep).changes.get (sourceSlot hosted key) =
      (k.epoch ep).changes.get (sourceSlot hosted key)
  rechecks : k.rechecks.has (hosted.name, key) = true ->
    k'.rechecks.has (hosted.name, key) = true

section Tending

variable (strict d ep hosted key)

def tending : Async.Contract Ask.reply Kernel :=
  { guar := Kernel.Tends d ep hosted key
    rely := Kernel.Tends d ep hosted key
    answers := fun question answer _ => d.Answers strict question answer }

/-- Whoever marks the key as seen publishes it or asks for a recheck. -/
def tendingDuty : Async.Duty Kernel :=
  { taken := fun k => k.Marked ep hosted key
    met := fun k => k.Fresh d ep hosted key ∨ k.rechecks.has (hosted.name, key) = true }

/-- {lit}`tracked` and {lit}`fresh` say how the key stood when the epoch began. -/
structure Tended (tracked fresh : Prop) (k : Kernel) : Prop where
  ready : k.state = KernelState.ready
  cached : k.cache.isSome = true
  watched : (k.sources hosted.name).isSome = true
  tracks : k.Tracks hosted key -> tracked ∨ k.Marked ep hosted key
  unstaged : hosted.provider = Provider.map ->
    (k.epoch ep).changes.get (sourceSlot hosted key) = none
  fresh : fresh -> k.Fresh d ep hosted key

variable {d strict ep hosted key}

theorem Kernel.Fresh.tends {k k' : Kernel} (h : k.Fresh d ep hosted key)
    (htends : k.Tends d ep hosted key k') : k'.Fresh d ep hosted key := by
  rcases htends.upcoming with hsame | hfresh
  · rcases h with ⟨file, hfile, hrenders⟩
    exact ⟨file, hsame.trans hfile, hrenders⟩
  · exact hfresh

theorem Kernel.Tends.of_leaves {k k' : Kernel} (h : Kernel.Leaves ep hosted key k k') :
    k.Tends d ep hosted key k' := by
  constructor
  · exact h.works
  · exact h.tracks.mpr
  · exact fun hk => Or.inl (h.tracks.mp hk)
  · exact h.marked.mpr
  · exact Or.inl h.upcoming
  · exact fun _ => h.staged
  · rw [h.rechecks]
    exact fun hhas => hhas

theorem tending_shared : (tending strict d ep hosted key).Shared := by
  have htrans : forall k k' k'', Kernel.Tends d ep hosted key k k' ->
      Kernel.Tends d ep hosted key k' k'' -> Kernel.Tends d ep hosted key k k'' := by
    intro k k' k'' h h'
    constructor
    · exact h.works.trans h'.works
    · exact fun hk => h'.tracks (h.tracks hk)
    · intro hk
      rcases h'.tracked hk with hbefore | hmarked
      · exact (h.tracked hbefore).imp_right h'.marked
      · exact Or.inr hmarked
    · exact fun hk => h'.marked (h.marked hk)
    · rcases h'.upcoming with hsame | hfresh
      · rcases h.upcoming with hsame' | hfresh'
        · exact Or.inl (hsame.trans hsame')
        · exact Or.inr (hfresh'.tends h')
      · exact Or.inr hfresh
    · exact fun hmap => (h'.unstaged hmap).trans (h.unstaged hmap)
    · exact fun hk => h'.rechecks (h.rechecks hk)
  constructor
  · exact ⟨fun k => Kernel.Tends.of_leaves (Kernel.Leaves.refl k), htrans⟩
  · exact fun _ _ h => h
  · exact htrans

theorem tending_met : (tending strict d ep hosted key).Stable (tendingDuty d ep hosted key).met := by
  intro k k' h hrely
  rcases h with hfresh | hhas
  · exact Or.inl (hfresh.tends hrely)
  · exact Or.inr (hrely.rechecks hhas)

theorem marked_stable :
    (tending strict d ep hosted key).Stable (fun k => k.Marked ep hosted key) :=
  fun _ _ h hrely => hrely.marked h

variable {tracked fresh : Prop}

theorem Tended.tends {k k' : Kernel} (h : Tended d ep hosted key tracked fresh k)
    (htends : k.Tends d ep hosted key k') : Tended d ep hosted key tracked fresh k' := by
  constructor
  · exact htends.works.state.trans h.ready
  · exact htends.works.cache.trans h.cached
  · exact (htends.works.watched _).trans h.watched
  · intro hk
    rcases htends.tracked hk with hbefore | hmarked
    · exact (h.tracks hbefore).imp_right htends.marked
    · exact Or.inr hmarked
  · exact fun hmap => (htends.unstaged hmap).trans (h.unstaged hmap)
  · exact fun hf => (h.fresh hf).tends htends

theorem tended_stable :
    (tending strict d ep hosted key).Stable (Tended d ep hosted key tracked fresh) :=
  fun _ _ h hrely => h.tends hrely

/-- Nobody else has a hand in the key. -/
theorem tending_accepts (hhosts : d.Hosts config) :
    Accepts (tending strict d ep hosted key) (tendingDuty d ep hosted key) config ep hosted key := by
  constructor
  · exact tending_shared
  · exact tending_met
  · exact fun k k' h => Kernel.Tends.of_leaves h
  · exact fun k k' h => h.marked.mp
  · exact fun question answer k hanswer => hhosts.regular hanswer

/-!
# Its publication
-/

/-- A job has the key at hand. -/
def Taken (d : Disk) (ep : EpochRef) (hosted : HostedPlace) (key : Key) (tracked fresh : Prop)
    (k : Kernel) : Prop :=
  Tended d ep hosted key tracked fresh k ∧ k.Marked ep hosted key

theorem Taken.tends {k k' : Kernel} (h : Taken d ep hosted key tracked fresh k)
    (htends : k.Tends d ep hosted key k') : Taken d ep hosted key tracked fresh k' :=
  ⟨h.1.tends htends, htends.marked h.2⟩

theorem taken_stable :
    (tending strict d ep hosted key).Stable (Taken d ep hosted key tracked fresh) :=
  fun _ _ h hrely => h.tends hrely

theorem tending_stores (hbelow : BelowRoot key) :
    Stores (tending strict d ep hosted key) d ep hosted key (Taken d ep hosted key tracked fresh)
      (fun k => Taken d ep hosted key tracked fresh k ∧ k.Fresh d ep hosted key)
      (fun k => Taken d ep hosted key tracked fresh k ∧ k.Fresh d ep hosted key) := by
  constructor
  · intro hprovider k built source hk _ hcarries hrenders
    have hstaged : ((k.stageAll ep (built.changes hosted.name)).epoch ep).changes.get
        (sourceSlot hosted key) = some (some source) := get_stageAll_carries hcarries k ep
    have hseen : ((k.stageAll ep (built.changes hosted.name)).epoch ep).seen = (k.epoch ep).seen :=
      seen_stageAll k ep (built.changes hosted.name)
    have hworks : k.Works ((k.stageAll ep (built.changes hosted.name)).record hosted.name key) :=
      (Kernel.Works.stageAll k ep (built.changes hosted.name)).trans
        (Kernel.Works.of_same rfl rfl rfl rfl)
    rcases stageAll_eq (built.changes hosted.name) k ep with ⟨epochs, heq⟩
    rw [heq] at hstaged hseen hworks ⊢
    have hfresh : Kernel.Fresh ({ k with epochs := epochs }.record hosted.name key) d ep hosted
        key := by
      refine ⟨source, ?_, hrenders⟩
      unfold Kernel.upcoming
      rw [if_neg hprovider]
      exact congrArg (fun change => Option.getD change _) hstaged
    have hmarked : k.Marked ep hosted key ->
        Kernel.Marked ({ k with epochs := epochs }.record hosted.name key) ep hosted key := by
      intro hmarked
      have hmem : (hosted.name, key) ∈ (k.epoch ep).seen := hmarked
      rw [← hseen] at hmem
      exact hmem
    have htends : k.Tends d ep hosted key ({ k with epochs := epochs }.record hosted.name key) :=
      ⟨hworks, fun h => h, Or.inl, hmarked, Or.inr hfresh, fun hmap => absurd hmap hprovider,
        fun h => h⟩
    exact ⟨htends, Taken.tends hk htends, hfresh⟩
  · intro hprovider k file own hk _ hrenders hpublish
    have hfresh : Kernel.Fresh ({ k with
        files := Kernel.setFiles k.files hosted.name own }.record hosted.name key) d ep hosted
        key := by
      refine ⟨file, ?_, hrenders⟩
      unfold Kernel.upcoming Kernel.published
      rw [if_pos hprovider, if_pos hprovider]
      show (Function.update k.files hosted.name own hosted.name).get _ = _
      rw [Function.update_self, MapStore.get_publish_source hpublish, if_pos rfl]
    have htends : k.Tends d ep hosted key ({ k with
        files := Kernel.setFiles k.files hosted.name own }.record hosted.name key) :=
      ⟨Kernel.Works.of_same rfl rfl rfl rfl, fun h => h, Or.inl, fun h => h, Or.inr hfresh,
        fun _ => rfl, fun h => h⟩
    exact ⟨htends, Taken.tends hk htends, hfresh⟩
  · intro k file hk
    have htends : k.Tends d ep hosted key (trackSource hosted key file k) := by
      refine ⟨Kernel.Works.track k hosted hbelow file, tracks_track, ?_, fun h => h, Or.inl rfl,
        fun _ => rfl, fun h => h⟩
      exact fun _ => Or.inr hk.1.2
    exact ⟨htends, Taken.tends hk.1 htends, hk.2.tends htends⟩

/-- A publication that starts leaves the key fresh, or asks for a recheck. -/
theorem tending_publish (hbelow : BelowRoot key) {stats : DiskStat}
    (hcaches : d.Caches hosted key stats) :
    Async.Serve (tending strict d ep hosted key) (tendingDuty d ep hosted key)
      (Tended d ep hosted key tracked fresh)
      (publish ep hosted key (diskFile hosted key stats.stat) true)
      (fun _ k => Tended d ep hosted key tracked fresh k ∧ k.Marked ep hosted key)
      (fun _ _ => False) := by
  have hc : (tending strict d ep hosted key).Shared := tending_shared
  have hd : FromDisk (tending strict d ep hosted key) d strict := fun _ _ _ h => h
  have hfreshly : (tending strict d ep hosted key).Stable
      (fun k => Taken d ep hosted key tracked fresh k ∧ k.Fresh d ep hosted key) :=
    fun k k' h hrely => ⟨taken_stable k k' h.1 hrely, h.2.tends hrely⟩
  have hentry : Async.Triple (tending strict d ep hosted key) (Taken d ep hosted key tracked fresh)
      (call (publishEntry ep hosted key (diskFile hosted key stats.stat)))
      (fun _ k => Taken d ep hosted key tracked fresh k ∧ (tendingDuty d ep hosted key).met k)
      (fun _ => Taken d ep hosted key tracked fresh) := by
    have hstored : Async.Triple (tending strict d ep hosted key)
        (Taken d ep hosted key tracked fresh)
        (call (publishEntry ep hosted key (diskFile hosted key stats.stat)))
        (fun _ k => Taken d ep hosted key tracked fresh k ∧ k.Fresh d ep hosted key)
        (fun _ => Taken d ep hosted key tracked fresh) :=
      Async.triple_settle hc.toSteady
        (triple_publishEntry hc hd (tending_stores hbelow) taken_stable hfreshly hcaches.1)
        (fun _ => hfreshly) (fun _ => taken_stable)
    exact Async.triple_weaken hstored (fun _ h => h) (fun _ _ h => ⟨h.1, Or.inl h.2⟩)
      (fun _ _ h => h)
  have hfailed : Async.Triple (tending strict d ep hosted key)
      (Taken d ep hosted key tracked fresh) (publishFailed hosted key true)
      (fun _ k => Taken d ep hosted key tracked fresh k ∧ (tendingDuty d ep hosted key).met k)
      (fun _ _ => False) := by
    apply Async.triple_read
    intro k hk
    have hopen : ¬ k.state = KernelState.closed := by
      intro hclosed
      cases hclosed.symm.trans hk.1.ready
    rw [if_neg hopen]
    apply Async.triple_set hc.toSteady _ (Async.triple_done (fun _ h => h))
    intro k' heq
    rw [heq]
    have hhas : (k.scheduleRecheck hosted key).rechecks.has (hosted.name, key) = true := by
      unfold Kernel.scheduleRecheck
      split_ifs with hhas
      · exact hhas
      · show (OrderedMap.get _ _).isSome = true
        rw [OrderedMap.get_set_self]
        rfl
    have hworks := Kernel.Works.schedule k hosted hbelow
    have hsame : exists rechecks, k.scheduleRecheck hosted key = { k with rechecks := rechecks } := by
      unfold Kernel.scheduleRecheck
      split_ifs
      · exact ⟨k.rechecks, rfl⟩
      · exact ⟨_, rfl⟩
    rcases hsame with ⟨rechecks, hsame⟩
    rw [hsame] at hhas hworks ⊢
    have htends : k.Tends d ep hosted key { k with rechecks := rechecks } :=
      ⟨hworks, fun h => h, Or.inl, fun h => h, Or.inl rfl, fun _ => rfl, fun _ => hhas⟩
    exact ⟨htends, Taken.tends hk htends, Or.inr hhas⟩
  intro s0 s hguar hsettled hs
  show Async.Serves _ _ _ _ (if (hosted.name, key) ∈ (s.epoch ep).seen then _ else _) s0 s
  split_ifs with hseen
  · exact ⟨hguar, hsettled, hs, hseen⟩
  · have hmarked : Kernel.Marked (s.markSeen ep hosted.name key) ep hosted key := by
      show (hosted.name, key) ∈ (Kernel.epoch _ ep).seen
      unfold Kernel.markSeen Kernel.epoch
      dsimp only
      rw [OrderedMap.get_set_self]
      exact List.mem_cons_self
    have hchanges : ((s.markSeen ep hosted.name key).epoch ep).changes = (s.epoch ep).changes := by
      unfold Kernel.markSeen Kernel.epoch
      dsimp only
      rw [OrderedMap.get_set_self]
      rfl
    have hupcoming : (s.markSeen ep hosted.name key).upcoming ep hosted key =
        s.upcoming ep hosted key := by
      unfold Kernel.upcoming
      rw [hchanges]
      rfl
    have htends : s.Tends d ep hosted key (s.markSeen ep hosted.name key) :=
      ⟨Kernel.Works.of_same rfl rfl rfl rfl, fun h => h, Or.inl, fun _ => hmarked,
        Or.inl hupcoming, fun _ => by rw [hchanges], fun h => h⟩
    apply Async.serves_of_met
    have htriple := Async.triple_recover hentry (fun _ => hfailed)
    apply Async.meets_mono
      (htriple s0 _ (hc.trans _ _ _ hguar htends)
        ⟨hs.tends htends, hmarked⟩)
    · exact fun _ _ _ hend => hend
    · exact fun _ _ _ hend => ⟨hend.1, hend.2, hend.2.elim⟩

/-!
# Its jobs
-/

theorem stat_none_ne {q : Key} {stats : DiskStat} (hq : OfNames q)
    (hstat : d.stat (hosted.pathOf key) = Except.ok stats)
    (hnone : (d.stat (hosted.pathOf q)).toOption = none) :
    q ≠ key ∧ forall (source : PlaceFiles FileInput) dropped, dropped ∈ Kernel.gone source q ->
      dropped ≠ key := by
  have hnot : ¬ exists stats, d.stat (hosted.pathOf q) = Except.ok stats := by
    intro hex
    rcases hex with ⟨found, hfound⟩
    rw [hfound] at hnone
    cases hnone
  constructor
  · intro heq
    rw [heq] at hnot
    exact hnot ⟨stats, hstat⟩
  · intro source dropped hdropped heq
    rw [heq] at hdropped
    rcases mem_gone hq hdropped with hself | habove
    · rw [← hself] at hnot
      exact hnot ⟨stats, hstat⟩
    · exact hnot (Disk.stat_above hq habove hstat)

/-- What a job has seen to for a file that is there. -/
theorem tending_upkeep (hhosts : d.Hosts config) {stats : DiskStat}
    (hcaches : d.Caches hosted key stats) :
    Upkeep (tending strict d ep hosted key) (tendingDuty d ep hosted key) d ep hosted
      (Tended d ep hosted key tracked fresh) (fun j k => j = key -> k.Marked ep hosted key)
      (fun j k => j = key -> tracked ∨ k.Marked ep hosted key) (fun _ _ => True) := by
  have haccepts : Accepts (tending strict d ep hosted key) (tendingDuty d ep hosted key) config ep
      hosted key := tending_accepts hhosts
  constructor
  · exact tended_stable
  · exact fun j k k' h hrely heq => hrely.marked (h heq)
  · exact fun j k k' h hrely heq => (h heq).imp_right hrely.marked
  · exact fun _ _ _ _ _ => trivial
  · intro j k hk htracks heq
    rw [heq] at htracks
    exact hk.tracks htracks
  · exact fun j k _ h heq => Or.inr (h heq)
  · intro j found hbelow hfound
    by_cases hj : j = key
    · rw [hj] at hbelow hfound ⊢
      exact Async.serve_weaken (tending_publish hbelow hfound) (fun _ h => h)
        (fun _ _ h => ⟨h.1, fun _ => h.2⟩) (fun _ _ h => h)
    · apply Async.serve_weaken
        (haccepts.serve tended_stable (leaving_publish (fun _ => hj) hbelow ep _ true))
        (fun _ h => h)
      · exact fun _ _ h => ⟨h, fun heq => absurd heq hj⟩
      · exact fun _ _ h => h.1
  · intro q hq hnone
    rcases stat_none_ne hq hcaches.1 hnone with ⟨hne, hgone⟩
    apply Async.serve_weaken (haccepts.serve tended_stable (leaving_unpublish hne hgone ep))
      (fun _ h => h)
    · exact fun _ _ h => ⟨h, trivial⟩
    · exact fun _ _ h => ⟨h.2, trivial⟩

end Tending

end SharedMemoryFs.Lifecycle
