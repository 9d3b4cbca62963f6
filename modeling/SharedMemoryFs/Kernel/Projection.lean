import SharedMemoryFs.Kernel.Lifetime

/-!
# Projections are past indexes

The log names the index after every update.  A step only ever appends to it,
and a link counts from the point it was made at.
-/

namespace SharedMemoryFs

open Foundation

/-- The log of {lit}`k'` continues the log of {lit}`k`, and a link they share
counts from one point. -/
structure VfsKernel.Extends (k k' : VfsKernel) : Prop where
  history : k.history <+: k'.history
  updates : k.updates <+: k'.updates
  next : k.nextLinkId ≤ k'.nextLinkId
  since : forall {id link'}, k'.links.get id = some link' -> id ≤ k.nextLinkId ->
    exists link, k.links.get id = some link ∧ link.since = link'.since

namespace VfsKernel

theorem Extends.refl (k : VfsKernel) : Extends k k where
  history := List.prefix_rfl
  updates := List.prefix_rfl
  next := Nat.le_refl _
  since := fun hget _ => ⟨_, hget, rfl⟩

theorem Extends.trans {k k' k'' : VfsKernel} (h : Extends k k') (h' : Extends k' k'') :
    Extends k k'' where
  history := h.history.trans h'.history
  updates := h.updates.trans h'.updates
  next := h.next.trans h'.next
  since := by
    intro id link'' hget hle
    rcases h'.since hget (hle.trans h.next) with ⟨link', hget', hsince'⟩
    rcases h.since hget' hle with ⟨link, hlink, hsince⟩
    exact ⟨link, hlink, hsince.trans hsince'⟩

theorem extends_of_aside {k k' : VfsKernel} (h : Aside k k') : Extends k k' where
  history := h.history ▸ List.prefix_rfl
  updates := h.updates ▸ List.prefix_rfl
  next := Nat.le_of_eq h.nextLinkId.symm
  since := fun hget _ => ⟨_, h.links ▸ hget, rfl⟩

/-- Neither the log nor the links change. -/
structure SameLog (k k' : VfsKernel) : Prop where
  history : k'.history = k.history
  updates : k'.updates = k.updates
  next : k'.nextLinkId = k.nextLinkId
  links : k'.links = k.links

theorem SameLog.extends {k k' : VfsKernel} (h : SameLog k k') : Extends k k' where
  history := h.history ▸ List.prefix_rfl
  updates := h.updates ▸ List.prefix_rfl
  next := Nat.le_of_eq h.next.symm
  since := fun hget _ => ⟨_, h.links ▸ hget, rfl⟩

/-- Something runs after a change of neither. -/
theorem Extends.after {k m k' : VfsKernel} (h : Extends m k') (hsame : SameLog k m) :
    Extends k k' := hsame.extends.trans h

theorem setLink_extends (k : VfsKernel) {id : LinkId} {link link' : Link}
    (hget : k.links.get id = some link) (hsince : link.since = link'.since) :
    Extends k (k.setLink id link') where
  history := List.prefix_rfl
  updates := List.prefix_rfl
  next := Nat.le_refl _
  since := by
    intro other found hfound _
    have hfound : (k.links.set id link').get other = some found := hfound
    rw [OrderedMap.get_set] at hfound
    by_cases heq : other = id
    · rw [if_pos heq] at hfound
      rw [heq, ← Option.some.inj hfound]
      exact ⟨link, hget, hsince⟩
    · rw [if_neg heq] at hfound
      exact ⟨found, hfound, rfl⟩

theorem announce_extends (k : VfsKernel) (cache : FilesystemCache) (changes : Commit) :
    Extends k (k.announce cache changes).1 where
  history := ⟨[_], rfl⟩
  updates := ⟨[_], rfl⟩
  next := Nat.le_refl _
  since := by
    intro id link' hget _
    unfold announce at hget
    simp only [OrderedMap.get_mapValues] at hget
    rcases Option.map_eq_some_iff.mp hget with ⟨link, hlink, hpost⟩
    refine ⟨link, hlink, ?_⟩
    rw [← hpost]
    rfl

theorem newLink_extends (k : VfsKernel) : Extends k k.newLink where
  history := List.prefix_rfl
  updates := List.prefix_rfl
  next := Nat.le_succ _
  since := by
    intro id link' hget hle
    have hget : (k.links.set (k.nextLinkId + 1) _).get id = some link' := hget
    have hne : id ≠ k.nextLinkId + 1 := Nat.ne_of_lt (Nat.lt_succ_of_le hle)
    rw [OrderedMap.get_set_ne _ _ hne] at hget
    exact ⟨link', hget, rfl⟩

theorem deleteLink_extends (k : VfsKernel) (id : LinkId) :
    Extends k { k with links := k.links.delete id } where
  history := List.prefix_rfl
  updates := List.prefix_rfl
  next := Nat.le_refl _
  since := by
    intro other found hget _
    have hget : (k.links.delete id).get other = some found := hget
    rw [OrderedMap.get_delete] at hget
    split_ifs at hget
    exact ⟨found, hget, rfl⟩

theorem flush_extends {settle : VfsKernel -> List RetireId -> VfsKernel}
    (hsettle : forall k ids, Extends k (settle k ids)) (k : VfsKernel)
    (changes : List (Slot × Option Entry)) : Extends k (k.flush settle changes) := by
  unfold flush
  simp only
  split_ifs
  · exact SameLog.extends ⟨rfl, rfl, rfl, rfl⟩
  · exact (announce_extends k _ _).trans (hsettle _ _)

theorem compact_extends {settle : VfsKernel -> List RetireId -> VfsKernel}
    (hsettle : forall k ids, Extends k (settle k ids)) (k : VfsKernel) :
    Extends k (k.compact settle) := by
  unfold compact
  rcases k.cache.compact k.threshold with ⟨cache, result⟩
  cases result with
  | none => exact SameLog.extends ⟨rfl, rfl, rfl, rfl⟩
  | some moves => exact Extends.after (flush_extends hsettle _ _) ⟨rfl, rfl, rfl, rfl⟩

theorem settleWithin_extends (fuel : Nat) :
    forall k ids, Extends k (settleWithin fuel k ids) := by
  induction fuel with
  | zero => exact fun k ids => SameLog.extends ⟨rfl, rfl, rfl, rfl⟩
  | succ fuel ih =>
      intro k ids
      unfold settleWithin
      simp only
      split_ifs
      · exact Extends.after (compact_extends ih _) ⟨rfl, rfl, rfl, rfl⟩
      · exact SameLog.extends ⟨rfl, rfl, rfl, rfl⟩

theorem settle_extends (k : VfsKernel) (ids : List RetireId) : Extends k (k.settle ids) :=
  settleWithin_extends _ k ids

theorem closeLink_extends (k : VfsKernel) (id : LinkId) :
    Extends { k with links := k.links.delete id } (k.closeLink id) :=
  Extends.after (settle_extends _ _) ⟨rfl, rfl, rfl, rfl⟩

theorem flushNow_extends (k : VfsKernel) (changes : List (Slot × Option Entry)) :
    Extends k (k.flushNow changes) := flush_extends settle_extends k changes

theorem handle_extends (k : VfsKernel) (id : LinkId) (message : UpMessage) :
    Extends k (k.handle id message) := by
  cases message with
  | ack updateId retained => exact Extends.after (settle_extends _ _) ⟨rfl, rfl, rfl, rfl⟩
  | release retireIds => exact Extends.after (settle_extends _ _) ⟨rfl, rfl, rfl, rfl⟩

theorem releaseMain_extends (k : VfsKernel) (consumer : ConsumerId) :
    Extends k (k.releaseMain consumer) := by
  unfold releaseMain
  simp only
  cases (k.main.release consumer).2 with
  | none => exact SameLog.extends ⟨rfl, rfl, rfl, rfl⟩
  | some id => exact Extends.after (settle_extends _ _) ⟨rfl, rfl, rfl, rfl⟩

theorem extends_of_publishes {extra : Multiset Extent} {k k' : VfsKernel}
    (h : Publishes extra k k') : Extends k k' := by
  cases h with
  | aside k' haside _ => exact extends_of_aside haside
  | flush m changes haside _ _ => exact (extends_of_aside haside).trans (flushNow_extends m changes)

end VfsKernel

open VfsKernel in
theorem step_extends {fileExt : Key -> Ext} {k k' : VfsKernel} (h : k.Sound 0)
    (hstep : Step fileExt k k') : Extends k k' := by
  cases hstep with
  | publication hstep => exact extends_of_publishes (publication_publishes h hstep)
  | link => exact newLink_extends k
  | attach id link snapshot hget hworker => exact setLink_extends k hget rfl
  | deliverUpdate id link t update rest hget hworker hdown =>
      exact setLink_extends k hget rfl
  | deliverMessage id link message rest hget hup =>
      have hset : Extends k (k.setLink id
          { link with up := rest, processed := message :: link.processed }) :=
        setLink_extends k hget rfl
      exact hset.trans (handle_extends _ _ _)
  | acquireMain consumer slot hnew => exact SameLog.extends ⟨rfl, rfl, rfl, rfl⟩
  | releaseMain consumer => exact releaseMain_extends _ _
  | acquireWorker id link t consumer slot hget hworker hnew =>
      exact setLink_extends k hget rfl
  | releaseWorker id link t consumer hget hworker => exact setLink_extends k hget rfl
  | exit id link hget => exact setLink_extends k hget rfl
  | close id link hget hworker =>
      exact (deleteLink_extends k id).trans (closeLink_extends k id)

theorem noisyStep_extends {fileExt : Key -> Ext} {k k' : VfsKernel} (h : k.Sound 0)
    (hstep : NoisyStep fileExt k k') : VfsKernel.Extends k k' := by
  cases hstep with
  | step hstep => exact step_extends h hstep
  | repeated id link message hget hmem => exact VfsKernel.handle_extends _ _ _
  | stale id message hget => exact VfsKernel.handle_extends _ _ _

/-!
# Main results
-/

theorem NoisyRun.extends {fileExt : Key -> Ext} {k k' : VfsKernel}
    (h : NoisyRun fileExt k k') (hk : NoisyReachable fileExt k) : k.Extends k' := by
  induction h with
  | refl => exact VfsKernel.Extends.refl k
  | step hrun hstep ih => exact ih.trans (noisyStep_extends (hrun.reachable hk).sound hstep)

/-- In a state as long as the log, its last index is the current one. -/
theorem VfsKernel.Sound.history_now {k : VfsKernel} {extra : Multiset Extent}
    (h : k.Sound extra) {k' : VfsKernel} (hextends : k.Extends k') :
    exists index, k'.history[k.updates.length]? = some index ∧
      forall slot, index.get slot = k.cache.index.get slot := by
  rcases h.log.last with ⟨final, hfinal, hsame⟩
  rcases hextends.history with ⟨later, hlater⟩
  refine ⟨final, ?_, hsame⟩
  rw [← hlater]
  rw [List.getElem?_append_left (List.getElem?_eq_some_iff.mp hfinal).1]
  exact hfinal

/-- A worker linked at {lit}`k` that applied {lit}`n` updates projects the index
after the {lit}`n`-th update sent since.  Any state of the run with as many
updates has that index; the main thread projects the index of now. -/
theorem projection_past {fileExt : Key -> Ext} {k k' : VfsKernel}
    (h : NoisyReachable fileExt k) (hrun : NoisyRun fileExt k.newLink k') :
    (forall link t, k'.links.get (k.nextLinkId + 1) = some link ->
      link.worker = Worker.attached t ->
      (exists index, k'.history[k.updates.length + link.applied]? = some index ∧
        t.Projects index) ∧
      forall m, NoisyRun fileExt k.newLink m -> NoisyRun fileExt m k' ->
        m.updates.length = k.updates.length + link.applied ->
        t.Projects m.cache.index) ∧
      k'.main.Projects k'.cache.index := by
  have hnew : NoisyReachable fileExt k.newLink := h.step (NoisyStep.step Step.link)
  have hsound := (hrun.reachable hnew).sound
  refine ⟨?_, hsound.main.projects⟩
  intro link t hlink hworker
  have hsince : link.since = k.updates.length := by
    rcases (hrun.extends hnew).since hlink (Nat.le_refl _) with ⟨first, hfirst, hsince⟩
    have hfirst : (k.links.set (k.nextLinkId + 1) _).get (k.nextLinkId + 1) = some first :=
      hfirst
    rw [OrderedMap.get_set_self] at hfirst
    rw [← hsince, ← Option.some.inj hfirst]
  rcases (hsound.attached hlink hworker).projects with ⟨index, hindex, hprojects⟩
  rw [hsince] at hindex
  refine ⟨⟨index, hindex, hprojects⟩, ?_⟩
  intro m hbefore hafter hlength
  have hm := hbefore.reachable hnew
  rcases hm.sound.history_now (hafter.extends hm) with ⟨now, hnow, hsame⟩
  rw [hlength, hindex] at hnow
  refine hprojects.congr ?_
  intro slot
  rw [Option.some.inj hnow]
  exact (hsame slot).symm

/-- The worker of the example applied no update: it projects the index of the
moment it was linked. -/
theorem projection_past_demo : exists link t,
    VfsKernel.demo.links.get 1 = some link ∧ link.worker = Worker.attached t ∧
      t.Projects VfsKernel.demoPublished.cache.index :=
  ⟨_, _, rfl, rfl,
    ((projection_past VfsKernel.demoPublished_reachable.noisy
      VfsKernel.demo_run.noisy).1 _ _ rfl rfl).2 VfsKernel.demoPublished.newLink
        NoisyRun.refl VfsKernel.demo_run.noisy rfl⟩

end SharedMemoryFs
