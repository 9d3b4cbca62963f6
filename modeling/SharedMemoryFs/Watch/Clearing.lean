import SharedMemoryFs.Watch.Tending

/-!
# What is not there

A key the disk has no file for is never published by an epoch, and a deletion at it or
above takes it out.  A key whose path leads to something else stays as it is.
-/

namespace SharedMemoryFs.Lifecycle

open Foundation

variable {config : Config} {strict : Bool} {d : Disk}
variable {ep : EpochRef} {hosted : HostedPlace} {key : Key}

/-!
# The deletion of a key
-/

/-- The keys of a deletion are all that is tracked at its path and below. -/
theorem mem_gone_of {source : PlaceFiles FileInput} (hsource : source.Indexed) {q : Key}
    (hq : OfNames q) (hhas : source.hasSource key = true) (h : key = q ∨ Above slash q key) :
    key ∈ Kernel.gone source q := by
  unfold Kernel.gone
  apply List.mem_append.mpr
  rcases h with heq | habove
  · left
    rw [← heq, if_pos hhas]
    exact List.mem_singleton_self key
  · right
    unfold PlaceFiles.keysUnder
    rw [dirOf_ofNames hq]
    apply List.mem_map.mpr
    refine ⟨(key, false), ?_, rfl⟩
    apply List.mem_filter.mpr
    exact ⟨(PlaceFiles.mem_below hsource q (key, false)).mpr ⟨habove, hhas⟩, rfl⟩

theorem get_unstage (k : Kernel) :
    ((k.unstage ep hosted key).epoch ep).changes.get (sourceSlot hosted key) = some none := by
  unfold Kernel.unstage
  rw [List.map_cons]
  show (((k.stage ep (sourceSlot hosted key) none).stageAll ep _).epoch ep).changes.get _ = _
  rw [get_stageAll_ne, epoch_stage, if_pos rfl]
  · exact OrderedMap.get_set_self _ _ _
  · intro change hmem heq
    rcases List.mem_map.mp hmem with ⟨companion, hin, hchange⟩
    rw [← hchange] at heq
    exact absurd ((Slot.mk.inj heq).2 ▸ hin) Place.ofSource_not_companion

theorem not_tracks_untrack (k : Kernel) : ¬ (k.untrack hosted key).Tracks hosted key := by
  unfold Kernel.Tracks Kernel.untrack
  dsimp only
  rw [Function.update_self]
  cases k.sources hosted.name with
  | none => exact fun h => by cases h
  | some source =>
      intro h
      exact ((PlaceFiles.hasSource_delete _ _ _).mp h).1 rfl

/-- A key that is dropped is no longer tracked, and goes with the flush. -/
theorem drop_key (k : Kernel) :
    k.Works (k.dropSource ep hosted key) ∧ ¬ (k.dropSource ep hosted key).Tracks hosted key ∧
      (k.dropSource ep hosted key).upcoming ep hosted key = none ∧
        (hosted.provider = Provider.map ->
          ((k.dropSource ep hosted key).epoch ep).changes.get (sourceSlot hosted key) =
            (k.epoch ep).changes.get (sourceSlot hosted key)) := by
  have hworks : k.Works ((k.untrack hosted key).cancelRecheck hosted key) :=
    (Kernel.Works.untrack k hosted key).trans (Kernel.Works.cancel _ hosted key)
  have huntracked : ¬ ((k.untrack hosted key).cancelRecheck hosted key).Tracks hosted key :=
    not_tracks_untrack k
  unfold Kernel.dropSource
  dsimp only
  split_ifs with hmap
  · unfold Kernel.removeMap
    dsimp only
    split_ifs with hhas
    · refine ⟨hworks.trans (Kernel.Works.of_same rfl rfl rfl rfl), huntracked, ?_, fun _ => rfl⟩
      unfold Kernel.upcoming Kernel.published
      rw [if_pos hmap, if_pos hmap]
      dsimp only [Kernel.setFiles]
      rw [Function.update_self, MapStore.get_remove, if_pos (Or.inl rfl)]
    · refine ⟨hworks, huntracked, ?_, fun _ => rfl⟩
      unfold Kernel.upcoming Kernel.published
      rw [if_pos hmap, if_pos hmap]
      exact Option.not_isSome_iff_eq_none.mp hhas
  · have hunstaged : ((Kernel.unstage ((k.untrack hosted key).cancelRecheck hosted key) ep hosted
        key).epoch ep).changes.get (sourceSlot hosted key) = some none := get_unstage _
    refine ⟨hworks.trans (Kernel.Works.stageAll _ ep _), ?_, ?_, fun h => absurd h hmap⟩
    · unfold Kernel.unstage
      rcases stageAll_eq ((EntryKey.ofSource key :: hosted.place.companions key).map
        (fun companion => ((⟨hosted.name, companion⟩ : Slot), none)))
        ((k.untrack hosted key).cancelRecheck hosted key) ep with ⟨epochs, heq⟩
      rw [heq]
      exact huntracked
    · unfold Kernel.upcoming
      rw [if_neg hmap, hunstaged]
      rfl

/-!
# A file that is not there
-/

/-- Once the key is not published it stays so, and what is tracked goes with its source. -/
structure Kernel.Clears (ep : EpochRef) (hosted : HostedPlace) (key : Key) (k k' : Kernel) :
    Prop where
  works : k.Works k'
  upcoming : k.upcoming ep hosted key = none -> k'.upcoming ep hosted key = none
  tracked : k.Tracks hosted key ∨ k.upcoming ep hosted key = none ->
    k'.Tracks hosted key ∨ k'.upcoming ep hosted key = none
  unstaged : hosted.provider = Provider.map ->
    (k'.epoch ep).changes.get (sourceSlot hosted key) =
      (k.epoch ep).changes.get (sourceSlot hosted key)

/-- No job has a duty. -/
def noDuty : Async.Duty Kernel := { taken := fun _ => False, met := fun _ => True }

section Clearing

variable (strict d ep hosted key)

def clearing : Async.Contract Ask.reply Kernel :=
  { guar := Kernel.Clears ep hosted key
    rely := Kernel.Clears ep hosted key
    answers := fun question answer _ => d.Answers strict question answer }

/-- {lit}`tracked` and {lit}`absent` say how the key stood when the epoch began. -/
structure Cleared (tracked absent : Prop) (k : Kernel) : Prop where
  ready : k.state = KernelState.ready
  cached : k.cache.isSome = true
  watched : (k.sources hosted.name).isSome = true
  tidy : k.Tidy
  unstaged : hosted.provider = Provider.map ->
    (k.epoch ep).changes.get (sourceSlot hosted key) = none
  tracked : tracked -> k.Tracks hosted key ∨ k.upcoming ep hosted key = none
  absent : absent -> k.upcoming ep hosted key = none

variable {strict d ep hosted key}

theorem Kernel.Clears.of_leaves {k k' : Kernel} (h : Kernel.Leaves ep hosted key k k') :
    k.Clears ep hosted key k' := by
  constructor
  · exact h.works
  · exact fun hnone => h.upcoming.trans hnone
  · exact fun hor => hor.imp h.tracks.mpr (fun hnone => h.upcoming.trans hnone)
  · exact fun _ => h.staged

theorem Kernel.Clears.trans {k k' k'' : Kernel} (h : k.Clears ep hosted key k')
    (h' : k'.Clears ep hosted key k'') : k.Clears ep hosted key k'' := by
  constructor
  · exact h.works.trans h'.works
  · exact fun hnone => h'.upcoming (h.upcoming hnone)
  · exact fun hor => h'.tracked (h.tracked hor)
  · exact fun hmap => (h'.unstaged hmap).trans (h.unstaged hmap)

theorem clearing_shared : (clearing strict d ep hosted key).Shared := by
  constructor
  · exact ⟨fun k => Kernel.Clears.of_leaves (Kernel.Leaves.refl k),
      fun _ _ _ => Kernel.Clears.trans⟩
  · exact fun _ _ h => h
  · exact fun _ _ _ => Kernel.Clears.trans

variable {tracked absent : Prop}

theorem Cleared.clears {k k' : Kernel} (h : Cleared ep hosted key tracked absent k)
    (hclears : k.Clears ep hosted key k') : Cleared ep hosted key tracked absent k' := by
  constructor
  · exact hclears.works.state.trans h.ready
  · exact hclears.works.cache.trans h.cached
  · exact (hclears.works.watched _).trans h.watched
  · exact hclears.works.tidy h.tidy
  · exact fun hmap => (hclears.unstaged hmap).trans (h.unstaged hmap)
  · exact fun htracked => hclears.tracked (h.tracked htracked)
  · exact fun habsent => hclears.upcoming (h.absent habsent)

theorem cleared_stable :
    (clearing strict d ep hosted key).Stable (Cleared ep hosted key tracked absent) :=
  fun _ _ h hrely => h.clears hrely

theorem clearing_accepts (hhosts : d.Hosts config) :
    Accepts (clearing strict d ep hosted key) noDuty config ep hosted key := by
  constructor
  · exact clearing_shared
  · exact fun _ _ _ _ => trivial
  · exact fun k k' h => Kernel.Clears.of_leaves h
  · exact fun _ _ _ h => h
  · exact fun question answer k hanswer => hhosts.regular hanswer

/-- Whatever a deletion drops. -/
theorem clears_dropped (keys : List Key) (k : Kernel) :
    k.Clears ep hosted key (keys.foldl (Kernel.dropSource ep hosted) k) ∧
      (key ∈ keys -> (keys.foldl (Kernel.dropSource ep hosted) k).upcoming ep hosted key = none) := by
  induction keys generalizing k with
  | nil => exact ⟨Kernel.Clears.of_leaves (Kernel.Leaves.refl k), fun hmem => by cases hmem⟩
  | cons dropped rest ih =>
      have hrest := ih (k.dropSource ep hosted dropped)
      rw [List.foldl_cons]
      by_cases hkey : dropped = key
      · rw [hkey] at hrest ⊢
        rcases drop_key k with ⟨hworks, _, hnone, hunstaged⟩
        have hfirst : k.Clears ep hosted key (k.dropSource ep hosted key) :=
          ⟨hworks, fun _ => hnone, fun _ => Or.inr hnone, hunstaged⟩
        exact ⟨hfirst.trans hrest.1, fun _ => hrest.1.upcoming hnone⟩
      · have hfirst : k.Clears ep hosted key (k.dropSource ep hosted dropped) :=
          Kernel.Clears.of_leaves (leaves_drop (fun _ => hkey) k ep)
        refine ⟨hfirst.trans hrest.1, ?_⟩
        intro hmem
        rcases List.mem_cons.mp hmem with heq | hin
        · exact absurd heq.symm hkey
        · exact hrest.2 hin

theorem clears_cancel (k : Kernel) (q : Key) :
    k.Clears ep hosted key (k.cancelRecheck hosted q) :=
  ⟨Kernel.Works.cancel k hosted q, fun h => h, fun h => h, fun _ => rfl⟩

theorem clearing_unpublish {q : Key} (hq : OfNames q) :
    Async.Triple (clearing strict d ep hosted key) (Cleared ep hosted key tracked absent)
      (unpublish ep hosted q)
      (fun _ k => (key = q ∨ Above slash q key) -> tracked -> k.upcoming ep hosted key = none)
      (fun _ k => (key = q ∨ Above slash q key) -> tracked -> k.upcoming ep hosted key = none) := by
  have hc : (clearing strict d ep hosted key).Shared := clearing_shared
  apply Async.triple_read
  intro k hk
  have huntracked : ¬ k.Tracks hosted key -> tracked -> k.upcoming ep hosted key = none := by
    intro hnot htracked
    exact (hk.tracked htracked).resolve_left hnot
  cases hsources : k.sources hosted.name with
  | none =>
      apply Async.triple_throw
      intro k' heq _ htracked
      rw [heq]
      apply huntracked _ htracked
      unfold Kernel.Tracks
      rw [hsources]
      exact fun h => by cases h
  | some source =>
      have hfold : k.Clears ep hosted key
          ((Kernel.gone source q).foldl (Kernel.dropSource ep hosted) k) ∧
          (key ∈ Kernel.gone source q -> Kernel.upcoming
            ((Kernel.gone source q).foldl (Kernel.dropSource ep hosted) k) ep hosted key = none) :=
        clears_dropped (Kernel.gone source q) k
      rcases hfold with ⟨hclears, hgone⟩
      apply Async.triple_set hc.toSteady _ (Async.triple_done (fun _ h => h))
      intro k' heq
      rw [heq]
      refine ⟨hclears.trans (clears_cancel _ q), ?_⟩
      intro hunder htracked
      show Kernel.upcoming (Kernel.cancelRecheck _ hosted q) ep hosted key = none
      by_cases hhas : source.hasSource key = true
      · exact hgone (mem_gone_of (hk.tidy.sources _ _ hsources).1 hq hhas hunder)
      · apply hclears.upcoming
        apply huntracked _ htracked
        unfold Kernel.Tracks
        rw [hsources]
        exact hhas

/-- What a job has seen to for a file that is not there. -/
theorem clearing_upkeep (hhosts : d.Hosts config)
    (habsent : forall stats, ¬ d.Caches hosted key stats) :
    Upkeep (clearing strict d ep hosted key) noDuty d ep hosted
      (Cleared ep hosted key tracked absent) (fun _ _ => True) (fun _ _ => True)
      (fun q k => (key = q ∨ Above slash q key) -> tracked -> k.upcoming ep hosted key = none) := by
  have haccepts : Accepts (clearing strict d ep hosted key) noDuty config ep hosted key :=
    clearing_accepts hhosts
  constructor
  · exact cleared_stable
  · exact fun _ _ _ _ _ => trivial
  · exact fun _ _ _ _ _ => trivial
  · exact fun q k k' h hrely hunder htracked => hrely.upcoming (h hunder htracked)
  · exact fun _ _ _ _ => trivial
  · exact fun _ _ _ _ => trivial
  · intro j stats hbelow hcaches
    have hj : j ≠ key := by
      intro heq
      rw [heq] at hcaches
      exact habsent stats hcaches
    apply Async.serve_weaken
      (haccepts.serve cleared_stable (leaving_publish (fun _ => hj) hbelow ep _ true))
      (fun _ h => h)
    · exact fun _ _ h => ⟨h, trivial⟩
    · exact fun _ _ h => h.1
  · intro q hq _
    have hdropped : forall k, Cleared ep hosted key tracked absent k ->
        Async.Ends ((clearing strict d ep hosted key).untaken noDuty)
          (fun _ k => (key = q ∨ Above slash q key) -> tracked -> k.upcoming ep hosted key = none)
          (fun _ k => (key = q ∨ Above slash q key) -> tracked -> k.upcoming ep hosted key = none)
          (unpublish ep hosted q) k k := by
      intro k hk
      have hends : Async.Ends (clearing strict d ep hosted key) _ _ (unpublish ep hosted q) k k :=
        clearing_unpublish hq k k (clearing_shared.refl k) hk
      have huntaken : forall k k', (clearing strict d ep hosted key).guar k k' ->
          ((clearing strict d ep hosted key).untaken noDuty).guar k k' :=
        fun _ _ h => ⟨h, fun h => h⟩
      exact Async.ends_mono huntaken (fun _ _ h => h) (fun _ _ _ h => h) hends
    have hserve := Async.serve_of_untaken clearing_shared haccepts.met hdropped
    apply Async.serve_weaken
      (Async.serve_frame clearing_shared haccepts.met cleared_stable hserve) (fun _ h => ⟨h, h⟩)
    · exact fun _ _ h => ⟨h.2, h.1⟩
    · exact fun _ _ h => ⟨h.2, h.1⟩

end Clearing

/-!
# A path that leads elsewhere
-/

/-- The key stays as it is. -/
structure Kernel.Rests (ep : EpochRef) (hosted : HostedPlace) (key : Key) (k k' : Kernel) :
    Prop where
  works : k.Works k'
  tracks : k'.Tracks hosted key <-> k.Tracks hosted key
  staged : (k'.epoch ep).changes.get (sourceSlot hosted key) =
    (k.epoch ep).changes.get (sourceSlot hosted key)
  published : (k'.published hosted).get (EntryKey.ofSource key) =
    (k.published hosted).get (EntryKey.ofSource key)

section Resting

variable (strict d ep hosted key)

def resting : Async.Contract Ask.reply Kernel :=
  { guar := Kernel.Rests ep hosted key
    rely := Kernel.Rests ep hosted key
    answers := fun question answer _ => d.Answers strict question answer }

variable {strict d ep hosted key}

theorem Kernel.Rests.trans {k k' k'' : Kernel} (h : k.Rests ep hosted key k')
    (h' : k'.Rests ep hosted key k'') : k.Rests ep hosted key k'' :=
  ⟨h.works.trans h'.works, h'.tracks.trans h.tracks, h'.staged.trans h.staged,
    h'.published.trans h.published⟩

theorem resting_shared : (resting strict d ep hosted key).Shared := by
  constructor
  · exact ⟨fun k => ⟨Kernel.Works.refl k, Iff.rfl, rfl, rfl⟩, fun _ _ _ => Kernel.Rests.trans⟩
  · exact fun _ _ h => h
  · exact fun _ _ _ => Kernel.Rests.trans

theorem resting_accepts (hhosts : d.Hosts config) :
    Accepts (resting strict d ep hosted key) noDuty config ep hosted key := by
  constructor
  · exact resting_shared
  · exact fun _ _ _ _ => trivial
  · exact fun k k' h => ⟨h.works, h.tracks, h.staged, h.published⟩
  · exact fun _ _ _ h => h
  · exact fun question answer k hanswer => hhosts.regular hanswer

/-- Jobs leave a path alone where the disk has something that is not cached. -/
theorem resting_upkeep (hhosts : d.Hosts config) {stats : DiskStat}
    (hstat : d.stat (hosted.pathOf key) = Except.ok stats)
    (hother : forall stats, ¬ d.Caches hosted key stats) (k0 : Kernel) :
    Upkeep (resting strict d ep hosted key) noDuty d ep hosted (k0.Rests ep hosted key)
      (fun _ _ => True) (fun _ _ => True) (fun _ _ => True) := by
  have haccepts : Accepts (resting strict d ep hosted key) noDuty config ep hosted key :=
    resting_accepts hhosts
  have hstable : (resting strict d ep hosted key).Stable (k0.Rests ep hosted key) :=
    fun _ _ h hrely => h.trans hrely
  constructor
  · exact hstable
  · exact fun _ _ _ _ _ => trivial
  · exact fun _ _ _ _ _ => trivial
  · exact fun _ _ _ _ _ => trivial
  · exact fun _ _ _ _ => trivial
  · exact fun _ _ _ _ => trivial
  · intro j stats hbelow hcaches
    have hj : j ≠ key := by
      intro heq
      rw [heq] at hcaches
      exact hother stats hcaches
    apply Async.serve_weaken
      (haccepts.serve hstable (leaving_publish (fun _ => hj) hbelow ep _ true)) (fun _ h => h)
    · exact fun _ _ h => ⟨h, trivial⟩
    · exact fun _ _ h => h.1
  · intro q hq hnone
    rcases stat_none_ne hq hstat hnone with ⟨hne, hgone⟩
    apply Async.serve_weaken (haccepts.serve hstable (leaving_unpublish hne hgone ep)) (fun _ h => h)
    · exact fun _ _ h => ⟨h, trivial⟩
    · exact fun _ _ h => ⟨h.2, trivial⟩

end Resting

end SharedMemoryFs.Lifecycle
