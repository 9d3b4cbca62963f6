import SharedMemoryFs.Kernel.Thread

/-!
# Retirement: ACK before free

A version an update replaces or removes is retired under a fresh id.  Its
record waits for the ACK of every worker the update was sent to, and then for
the threads that reported to hold it.  The handlers below return the ids whose
records the kernel has to look at again.
-/

namespace SharedMemoryFs

open Foundation

abbrev LinkId := Nat

inductive Holder where
  | main
  | link (id : LinkId)
deriving DecidableEq, Repr

/-- A retired version; {lit}`retiredAt` serves diagnostics only. -/
structure Record where
  updateId : UpdateId
  slot : Slot
  entry : Entry
  holders : Finset Holder

structure Ack where
  pending : Finset LinkId
  retired : List RetireId

structure Retirement where
  acks : OrderedMap UpdateId Ack
  retired : OrderedMap RetireId Record
  nextUpdateId : Nat
  nextRetireId : Nat

namespace Retirement

def new : Retirement :=
  { acks := OrderedMap.empty
    retired := OrderedMap.empty
    nextUpdateId := 0
    nextRetireId := 0 }

def addHolder (holder : Holder) (r : Retirement) (id : RetireId) : Retirement :=
  match r.retired.get id with
  | none => r
  | some record =>
      { r with
        retired := r.retired.set id
          { record with holders := insert holder record.holders } }

def handleAck (r : Retirement) (updateId : UpdateId) (link : LinkId)
    (retained : List RetireId) : Retirement × List RetireId :=
  let held := retained.foldl (addHolder (Holder.link link)) r
  match held.acks.get updateId with
  | none => (held, [])
  | some ack =>
      if link ∉ ack.pending then (held, [])
      else if ack.pending.erase link = ∅ then
        ({ held with acks := held.acks.delete updateId }, ack.retired)
      else
        ({ held with
          acks := held.acks.set updateId
            { ack with pending := ack.pending.erase link } }, [])

/-- Take {lit}`holder` off one record; true when it held it. -/
def dropHolder (holder : Holder) (r : Retirement) (id : RetireId) : Retirement × Bool :=
  match r.retired.get id with
  | none => (r, false)
  | some record =>
      if holder ∈ record.holders then
        ({ r with
          retired := r.retired.set id
            { record with holders := record.holders.erase holder } }, true)
      else (r, false)

def handleRelease (holder : Holder) : Retirement -> List RetireId ->
    Retirement × List RetireId
  | r, [] => (r, [])
  | r, id :: rest =>
      let drop := dropHolder holder r id
      let next := handleRelease holder drop.1 rest
      (next.1, if drop.2 then id :: next.2 else next.2)

def exitAck (link : LinkId) (ack : Ack) : Option Ack :=
  if link ∉ ack.pending then some ack
  else if ack.pending.erase link = ∅ then none
  else some { ack with pending := ack.pending.erase link }

def handleWorkerExit (r : Retirement) (link : LinkId) : Retirement × List RetireId :=
  ({ r with
    acks := r.acks.filterMapValues (fun _ => exitAck link)
    retired := r.retired.mapValues (fun _ record =>
      { record with holders := record.holders.erase (Holder.link link) }) },
    (r.acks.values.filter (fun ack => (exitAck link ack).isNone)).flatMap Ack.retired ++
      (r.retired.entries.filter
        (fun entry => decide (Holder.link link ∈ entry.2.holders))).map Prod.fst)

/-- The ids are settled at once when no worker has to ACK. -/
def track (r : Retirement) (links : Finset LinkId) (updateId : UpdateId)
    (retired : List RetireId) : Retirement × List RetireId :=
  if retired = [] then (r, [])
  else if links = ∅ then (r, retired)
  else
    ({ r with acks := r.acks.set updateId { pending := links, retired := retired } },
      [])

/-- A record neither an ACK nor a consumer holds any more. -/
def settled (r : Retirement) (id : RetireId) : Option Record :=
  match r.retired.get id with
  | none => none
  | some record =>
      if record.holders ≠ ∅ ∨ r.acks.has record.updateId = true then none
      else some record

def forget (r : Retirement) (id : RetireId) : Retirement :=
  { r with retired := r.retired.delete id }

/-- The records of {lit}`ids` that are settled leave; their entries are freed
in this order. -/
def sweep : Retirement -> List RetireId -> Retirement × List Entry
  | r, [] => (r, [])
  | r, id :: rest =>
      match r.settled id with
      | none => sweep r rest
      | some record =>
          let next := sweep (r.forget id) rest
          (next.1, record.entry :: next.2)

/-- Retire the versions an update replaces or removes, in the order it lists
them. -/
def retire (updateId : UpdateId) : Retirement -> List (Slot × Entry) ->
    Retirement × List (Slot × RetireId)
  | r, [] => (r, [])
  | r, (slot, entry) :: rest =>
      let id := r.nextRetireId + 1
      let record : Record :=
        { updateId := updateId, slot := slot, entry := entry, holders := ∅ }
      let next := retire updateId
        { r with retired := r.retired.set id record, nextRetireId := id } rest
      (next.1, (slot, id) :: next.2)

/-!
# What a record waits for
-/

def Has (r : Retirement) (id : RetireId) (entry : Entry) (updateId : UpdateId) : Prop :=
  exists record, r.retired.get id = some record ∧ record.entry = entry ∧
    record.updateId = updateId

def HeldBy (r : Retirement) (id : RetireId) (holder : Holder) : Prop :=
  exists record, r.retired.get id = some record ∧ holder ∈ record.holders

def Awaits (r : Retirement) (holder : Holder) (updateId : UpdateId) : Prop :=
  exists link ack, holder = Holder.link link ∧ r.acks.get updateId = some ack ∧
    link ∈ ack.pending

/-- {lit}`r'` still keeps for {lit}`holder` whatever {lit}`r` kept for it. -/
structure Keeps (holder : Holder) (r r' : Retirement) : Prop where
  awaits : forall {updateId}, r.Awaits holder updateId -> r'.Awaits holder updateId
  held : forall {id}, r.HeldBy id holder -> r'.HeldBy id holder
  has : forall {id entry updateId}, r.Has id entry updateId ->
    r.HeldBy id holder ∨ r.Awaits holder updateId -> r'.Has id entry updateId

theorem Keeps.refl (holder : Holder) (r : Retirement) : Keeps holder r r where
  awaits := id
  held := id
  has := fun h _ => h

theorem Keeps.trans {holder : Holder} {r r' r'' : Retirement}
    (h : Keeps holder r r') (h' : Keeps holder r' r'') : Keeps holder r r'' where
  awaits := fun hold => h'.awaits (h.awaits hold)
  held := fun hold => h'.held (h.held hold)
  has := fun hold hwait => h'.has (h.has hold hwait)
    (hwait.imp h.held h.awaits)

/-- No id was handed out twice. -/
structure Bounded (r : Retirement) : Prop where
  acks : forall {updateId ack}, r.acks.get updateId = some ack ->
    updateId ≤ r.nextUpdateId
  retired : forall {id record}, r.retired.get id = some record ->
    id ≤ r.nextRetireId ∧ record.updateId ≤ r.nextUpdateId

/-- Every record waits for an ACK, for a holder, or for being settled among
{lit}`ids`; and every ACK that completes names the records waiting for it. -/
structure Waiting (r : Retirement) (ids : List RetireId) : Prop where
  waits : forall {id record}, r.retired.get id = some record ->
    record.holders ≠ ∅ ∨ r.acks.has record.updateId = true ∨ id ∈ ids
  pending : forall {updateId ack}, r.acks.get updateId = some ack -> ack.pending ≠ ∅
  listed : forall {updateId ack id record}, r.acks.get updateId = some ack ->
    r.retired.get id = some record -> record.updateId = updateId -> id ∈ ack.retired

/-- The extents retired versions still own. -/
def extents (r : Retirement) : Multiset Extent :=
  r.retired.total (fun record => record.entry.extents)

/-- {lit}`r'` starts no new wait and keeps every record an ACK is still due for. -/
structure Advance (r r' : Retirement) : Prop where
  nextUpdateId : r'.nextUpdateId = r.nextUpdateId
  nextRetireId : r'.nextRetireId = r.nextRetireId
  awaits : forall {holder updateId}, r'.Awaits holder updateId ->
    r.Awaits holder updateId
  acks : forall {updateId ack'}, r'.acks.get updateId = some ack' ->
    exists ack, r.acks.get updateId = some ack
  listed : forall {id entry updateId ack'}, r.Has id entry updateId ->
    r'.acks.get updateId = some ack' -> r'.Has id entry updateId
  bounded : r.Bounded -> r'.Bounded

/-!
# Changing holders

The handlers rewrite the holder set of each record and leave the rest of it.
-/

structure Reholds (r r' : Retirement)
    (f : RetireId -> Finset Holder -> Finset Holder) : Prop where
  get : forall id, r'.retired.get id = (r.retired.get id).map
    (fun record => { record with holders := f id record.holders })
  extents : r'.extents = r.extents
  nextUpdateId : r'.nextUpdateId = r.nextUpdateId
  nextRetireId : r'.nextRetireId = r.nextRetireId

theorem Reholds.has {r r' : Retirement} {f : RetireId -> Finset Holder -> Finset Holder}
    (h : Reholds r r' f) {id : RetireId} {entry : Entry} {updateId : UpdateId} :
    r'.Has id entry updateId <-> r.Has id entry updateId := by
  unfold Has
  rw [h.get id]
  cases r.retired.get id with
  | none => simp
  | some record => simp

theorem Reholds.heldBy {r r' : Retirement}
    {f : RetireId -> Finset Holder -> Finset Holder}
    (h : Reholds r r' f) {id : RetireId} {holder : Holder} :
    r'.HeldBy id holder <->
      exists record, r.retired.get id = some record ∧ holder ∈ f id record.holders := by
  unfold HeldBy
  rw [h.get id]
  cases r.retired.get id with
  | none => simp
  | some record => simp

theorem Reholds.bounded {r r' : Retirement}
    {f : RetireId -> Finset Holder -> Finset Holder} (h : Reholds r r' f)
    (hbounded : r.Bounded)
    (hacks : forall {updateId ack'}, r'.acks.get updateId = some ack' ->
      exists ack, r.acks.get updateId = some ack) : r'.Bounded where
  acks := by
    intro updateId ack hack
    rcases hacks hack with ⟨old, hold⟩
    rw [h.nextUpdateId]
    exact hbounded.acks hold
  retired := by
    intro id record hid
    rw [h.get id] at hid
    rcases Option.map_eq_some_iff.mp hid with ⟨old, hold, hrecord⟩
    have hbound := hbounded.retired hold
    rw [h.nextRetireId, h.nextUpdateId, ← hrecord]
    exact hbound

/-- Rewriting one record's holders. -/
theorem reholds_set {r : Retirement} {id : RetireId} {record : Record}
    (hget : r.retired.get id = some record) (holders : Finset Holder) :
    Reholds r { r with retired := r.retired.set id { record with holders := holders } }
      (fun i old => if i = id then holders else old) where
  get := by
    intro i
    show (r.retired.set id _).get i = _
    rw [OrderedMap.get_set]
    by_cases hi : i = id
    · rw [if_pos hi, hi, hget]
      simp
    · rw [if_neg hi]
      cases r.retired.get i with
      | none => rfl
      | some old => simp [hi]
  extents := by
    have hset := OrderedMap.total_set r.retired id { record with holders := holders }
      (fun record => record.entry.extents)
    rw [hget, Option.elim_some] at hset
    exact add_right_cancel hset
  nextUpdateId := rfl
  nextRetireId := rfl

theorem reholds_refl (r : Retirement) : Reholds r r (fun _ old => old) where
  get := fun id => by cases r.retired.get id <;> rfl
  extents := rfl
  nextUpdateId := rfl
  nextRetireId := rfl

theorem Reholds.comp {r r' r'' : Retirement}
    {f g k : RetireId -> Finset Holder -> Finset Holder}
    (h : Reholds r r' f) (h' : Reholds r' r'' g)
    (hk : forall id holders, k id holders = g id (f id holders)) :
    Reholds r r'' k where
  get := by
    intro id
    rw [h'.get, h.get]
    cases r.retired.get id with
    | none => rfl
    | some record => simp [hk]
  extents := h'.extents.trans h.extents
  nextUpdateId := h'.nextUpdateId.trans h.nextUpdateId
  nextRetireId := h'.nextRetireId.trans h.nextRetireId

theorem Reholds.congr {r r' : Retirement}
    {f g : RetireId -> Finset Holder -> Finset Holder} (h : Reholds r r' f)
    (hfg : forall id record, r.retired.get id = some record ->
      f id record.holders = g id record.holders) : Reholds r r' g where
  get := by
    intro id
    rw [h.get]
    cases hid : r.retired.get id with
    | none => rfl
    | some record => simp [hfg id record hid]
  extents := h.extents
  nextUpdateId := h.nextUpdateId
  nextRetireId := h.nextRetireId

theorem reholds_addHolder (holder : Holder) (r : Retirement) (id : RetireId) :
    Reholds r (addHolder holder r id)
        (fun i old => if i = id then insert holder old else old) ∧
      (addHolder holder r id).acks = r.acks := by
  unfold addHolder
  cases hget : r.retired.get id with
  | none =>
      refine ⟨(reholds_refl r).congr ?_, rfl⟩
      intro i record hi
      have hne : i ≠ id := by
        intro heq
        rw [heq, hget] at hi
        cases hi
      rw [if_neg hne]
  | some record =>
      refine ⟨(reholds_set hget _).congr ?_, rfl⟩
      intro i old hi
      by_cases heq : i = id
      · rw [heq, hget] at hi
        rw [if_pos heq, if_pos heq, Option.some.inj hi]
      · rw [if_neg heq, if_neg heq]

theorem reholds_addHolders (holder : Holder) (r : Retirement) (ids : List RetireId) :
    Reholds r (ids.foldl (addHolder holder) r)
        (fun i old => if i ∈ ids then insert holder old else old) ∧
      (ids.foldl (addHolder holder) r).acks = r.acks := by
  induction ids generalizing r with
  | nil => exact ⟨(reholds_refl r).congr (fun _ _ _ => by simp), rfl⟩
  | cons id rest ih =>
      rcases reholds_addHolder holder r id with ⟨hfirst, hacks⟩
      rcases ih (addHolder holder r id) with ⟨hrest, hacks'⟩
      refine ⟨hfirst.comp hrest ?_, hacks'.trans hacks⟩
      intro i holders
      by_cases hi : i = id
      · by_cases hmem : i ∈ rest <;> simp [hi]
      · by_cases hmem : i ∈ rest <;> simp [hi, hmem]

theorem reholds_dropHolder (holder : Holder) (r : Retirement) (id : RetireId) :
    Reholds r (dropHolder holder r id).1
        (fun i old => if i = id then old.erase holder else old) ∧
      (dropHolder holder r id).1.acks = r.acks ∧
      ((dropHolder holder r id).2 = true <-> r.HeldBy id holder) := by
  unfold dropHolder HeldBy
  cases hget : r.retired.get id with
  | none =>
      refine ⟨(reholds_refl r).congr ?_, rfl, by simp⟩
      intro i record hi
      have hne : i ≠ id := by
        intro heq
        rw [heq, hget] at hi
        cases hi
      rw [if_neg hne]
  | some record =>
      by_cases hmem : holder ∈ record.holders
      · simp only [if_pos hmem]
        refine ⟨(reholds_set hget _).congr ?_, trivial, by simpa using hmem⟩
        intro i old hi
        by_cases heq : i = id
        · rw [heq, hget] at hi
          rw [if_pos heq, if_pos heq, Option.some.inj hi]
        · rw [if_neg heq, if_neg heq]
      · simp only [if_neg hmem]
        refine ⟨(reholds_refl r).congr ?_, trivial, by simpa using hmem⟩
        intro i old hi
        by_cases heq : i = id
        · rw [heq, hget] at hi
          rw [if_pos heq, ← Option.some.inj hi, Finset.erase_eq_of_notMem hmem]
        · rw [if_neg heq]

theorem reholds_handleRelease (holder : Holder) (r : Retirement)
    (ids : List RetireId) :
    Reholds r (handleRelease holder r ids).1
        (fun i old => if i ∈ ids then old.erase holder else old) ∧
      (handleRelease holder r ids).1.acks = r.acks ∧
      forall id, id ∈ ids -> r.HeldBy id holder ->
        id ∈ (handleRelease holder r ids).2 := by
  induction ids generalizing r with
  | nil =>
      exact ⟨(reholds_refl r).congr (fun _ _ _ => by simp), rfl,
        fun id hid => by cases hid⟩
  | cons head rest ih =>
      rcases reholds_dropHolder holder r head with ⟨hfirst, hacks, hheld⟩
      rcases ih (dropHolder holder r head).1 with ⟨hrest, hacks', hdone⟩
      refine ⟨hfirst.comp hrest ?_, hacks'.trans hacks, ?_⟩
      · intro i holders
        by_cases hi : i = head
        · by_cases hmem : i ∈ rest <;> simp [hi]
        · by_cases hmem : i ∈ rest <;> simp [hi, hmem]
      · intro id hid hold
        show id ∈ if (dropHolder holder r head).2 then
          head :: (handleRelease holder (dropHolder holder r head).1 rest).2 else _
        by_cases heq : id = head
        · rw [heq] at hold
          rw [if_pos (hheld.mpr hold), heq]
          exact List.mem_cons_self
        · have hin : id ∈ rest := (List.mem_cons.mp hid).resolve_left heq
          have hstill : (dropHolder holder r head).1.HeldBy id holder := by
            rcases hold with ⟨record, hget, hmem⟩
            refine hfirst.heldBy.mpr ⟨record, hget, ?_⟩
            rw [if_neg heq]
            exact hmem
          have hnext := hdone id hin hstill
          split_ifs
          · exact List.mem_cons_of_mem _ hnext
          · exact hnext

/-!
# Handlers

The three handlers differ in which waits they end and which holders they add
or drop.  No record leaves before its ids are settled.
-/

structure HandlerSpec (r r' : Retirement) (ids : List RetireId)
    (ends : Holder -> UpdateId -> Prop) (gains drops : Holder -> RetireId -> Prop) :
    Prop where
  has : forall {id entry updateId},
    r'.Has id entry updateId <-> r.Has id entry updateId
  extents : r'.extents = r.extents
  nextUpdateId : r'.nextUpdateId = r.nextUpdateId
  nextRetireId : r'.nextRetireId = r.nextRetireId
  awaits : forall {holder updateId}, r'.Awaits holder updateId <->
    r.Awaits holder updateId ∧ ¬ ends holder updateId
  held : forall {id holder}, r'.HeldBy id holder <->
    (r.HeldBy id holder ∧ ¬ drops holder id) ∨
      (gains holder id ∧ exists entry updateId, r.Has id entry updateId)
  acks : forall {updateId ack'}, r'.acks.get updateId = some ack' ->
    exists ack, r.acks.get updateId = some ack
  bounded : r.Bounded -> r'.Bounded
  waiting : r.Waiting [] -> r'.Waiting ids

theorem HandlerSpec.keeps {r r' : Retirement} {ids : List RetireId}
    {ends : Holder -> UpdateId -> Prop} {gains drops : Holder -> RetireId -> Prop}
    (h : HandlerSpec r r' ids ends gains drops) {holder : Holder}
    (hends : forall updateId, ¬ ends holder updateId)
    (hdrops : forall id, ¬ drops holder id) : Keeps holder r r' where
  awaits := fun hold => h.awaits.mpr ⟨hold, hends _⟩
  held := fun hold => h.held.mpr (Or.inl ⟨hold, hdrops _⟩)
  has := fun hold _ => h.has.mpr hold

theorem HandlerSpec.advance {r r' : Retirement} {ids : List RetireId}
    {ends : Holder -> UpdateId -> Prop} {gains drops : Holder -> RetireId -> Prop}
    (h : HandlerSpec r r' ids ends gains drops) : Advance r r' where
  nextUpdateId := h.nextUpdateId
  nextRetireId := h.nextRetireId
  awaits := fun hwait => (h.awaits.mp hwait).1
  acks := h.acks
  listed := fun hhas _ => h.has.mpr hhas
  bounded := h.bounded

theorem awaits_link {r : Retirement} {link : LinkId} {updateId : UpdateId} :
    r.Awaits (Holder.link link) updateId <->
      exists ack, r.acks.get updateId = some ack ∧ link ∈ ack.pending := by
  constructor
  · rintro ⟨l, ack, heq, hget, hmem⟩
    rw [Holder.link.inj heq]
    exact ⟨ack, hget, hmem⟩
  · rintro ⟨ack, hget, hmem⟩
    exact ⟨link, ack, rfl, hget, hmem⟩

theorem not_awaits_main {r : Retirement} {updateId : UpdateId} :
    ¬ r.Awaits Holder.main updateId := by
  rintro ⟨_, _, heq, _⟩
  cases heq

/-- Records are as before, up to holders, and so are the pending ACKs. -/
theorem Reholds.handlerSpec {r r' : Retirement} {holder : Holder} {ids done : List RetireId}
    (h : Reholds r r' (fun i old => if i ∈ ids then old.erase holder else old))
    (hacks : r'.acks = r.acks)
    (hdone : forall id, id ∈ ids -> r.HeldBy id holder -> id ∈ done) :
    HandlerSpec r r' done (fun _ _ => False) (fun _ _ => False)
      (fun other id => other = holder ∧ id ∈ ids) where
  has := h.has
  extents := h.extents
  nextUpdateId := h.nextUpdateId
  nextRetireId := h.nextRetireId
  awaits := by
    intro other updateId
    unfold Awaits
    rw [hacks]
    simp
  held := by
    intro id other
    rw [h.heldBy]
    unfold HeldBy
    constructor
    · rintro ⟨record, hget, hmem⟩
      refine Or.inl ?_
      by_cases hid : id ∈ ids
      · rw [if_pos hid, Finset.mem_erase] at hmem
        exact ⟨⟨record, hget, hmem.2⟩, fun hdrop => hmem.1 hdrop.1⟩
      · rw [if_neg hid] at hmem
        exact ⟨⟨record, hget, hmem⟩, fun hdrop => hid hdrop.2⟩
    · rintro (⟨⟨record, hget, hmem⟩, hkeep⟩ | ⟨hfalse, _⟩)
      · refine ⟨record, hget, ?_⟩
        by_cases hid : id ∈ ids
        · rw [if_pos hid, Finset.mem_erase]
          exact ⟨fun heq => hkeep ⟨heq, hid⟩, hmem⟩
        · rw [if_neg hid]
          exact hmem
      · exact hfalse.elim
  acks := fun hack => ⟨_, hacks ▸ hack⟩
  bounded := fun hbounded => h.bounded hbounded (fun hack => ⟨_, hacks ▸ hack⟩)
  waiting := by
    intro hwaiting
    have hold : forall {id record'}, r'.retired.get id = some record' ->
        exists record, r.retired.get id = some record ∧
          record'.updateId = record.updateId ∧
          record'.holders = if id ∈ ids then record.holders.erase holder
            else record.holders := by
      intro id record' hid
      rw [h.get id] at hid
      rcases Option.map_eq_some_iff.mp hid with ⟨record, hget, hrecord⟩
      exact ⟨record, hget, by rw [← hrecord], by rw [← hrecord]⟩
    refine { waits := ?_, pending := hacks ▸ hwaiting.pending, listed := ?_ }
    · intro id record' hid
      rcases hold hid with ⟨record, hget, hupdate, hholders⟩
      rw [hacks, hupdate, hholders]
      rcases hwaiting.waits hget with hne | hack | hnil
      · by_cases hmem : id ∈ ids ∧ holder ∈ record.holders
        · exact Or.inr (Or.inr (hdone id hmem.1 ⟨record, hget, hmem.2⟩))
        · refine Or.inl ?_
          by_cases hid : id ∈ ids
          · rw [if_pos hid, Finset.erase_eq_of_notMem (fun hin => hmem ⟨hid, hin⟩)]
            exact hne
          · rw [if_neg hid]
            exact hne
      · exact Or.inr (Or.inl hack)
      · cases hnil
    · intro updateId ack id record' hack hid hupdate
      rcases hold hid with ⟨record, hget, heq, _⟩
      rw [hacks] at hack
      exact hwaiting.listed hack hget (heq.symm.trans hupdate)

theorem handleRelease_spec (holder : Holder) (r : Retirement) (ids : List RetireId) :
    HandlerSpec r (handleRelease holder r ids).1 (handleRelease holder r ids).2
      (fun _ _ => False) (fun _ _ => False)
      (fun other id => other = holder ∧ id ∈ ids) := by
  rcases reholds_handleRelease holder r ids with ⟨hreholds, hacks, hdone⟩
  exact hreholds.handlerSpec hacks hdone

/-- Rewriting the pending ACKs of {lit}`held` for one link. -/
structure AckStep (held r' : Retirement) (link : LinkId) (updateId : UpdateId)
    (ids : List RetireId) : Prop where
  retired : r'.retired = held.retired
  nextUpdateId : r'.nextUpdateId = held.nextUpdateId
  nextRetireId : r'.nextRetireId = held.nextRetireId
  back : forall {u ack'}, r'.acks.get u = some ack' -> exists ack,
    held.acks.get u = some ack ∧ ack'.retired = ack.retired ∧
      ack'.pending = (if u = updateId then ack.pending.erase link else ack.pending) ∧
      (ack.pending ≠ ∅ -> ack'.pending ≠ ∅)
  forth : forall {u ack}, held.acks.get u = some ack ->
    (exists ack', r'.acks.get u = some ack') ∨
      (u = updateId ∧ ack.pending.erase link = ∅ ∧ ids = ack.retired)

/-- The part of {lit}`handleAck` after the holders are added. -/
def completeAck (held : Retirement) (updateId : UpdateId) (link : LinkId) :
    Retirement × List RetireId :=
  match held.acks.get updateId with
  | none => (held, [])
  | some ack =>
      if link ∉ ack.pending then (held, [])
      else if ack.pending.erase link = ∅ then
        ({ held with acks := held.acks.delete updateId }, ack.retired)
      else
        ({ held with
          acks := held.acks.set updateId
            { ack with pending := ack.pending.erase link } }, [])

theorem handleAck_eq (r : Retirement) (updateId : UpdateId) (link : LinkId)
    (retained : List RetireId) :
    r.handleAck updateId link retained =
      completeAck (retained.foldl (addHolder (Holder.link link)) r) updateId link := rfl

theorem ackStep_same {held : Retirement} {link : LinkId} {updateId : UpdateId}
    (h : forall ack, held.acks.get updateId = some ack -> link ∉ ack.pending) :
    AckStep held held link updateId [] where
  retired := rfl
  nextUpdateId := rfl
  nextRetireId := rfl
  back := by
    intro u ack hack
    refine ⟨ack, hack, rfl, ?_, id⟩
    by_cases hu : u = updateId
    · rw [if_pos hu, Finset.erase_eq_of_notMem (h ack (hu ▸ hack))]
    · rw [if_neg hu]
  forth := fun hack => Or.inl ⟨_, hack⟩

theorem completeAck_step (held : Retirement) (updateId : UpdateId) (link : LinkId) :
    AckStep held (completeAck held updateId link).1 link updateId
      (completeAck held updateId link).2 := by
  unfold completeAck
  cases hack : held.acks.get updateId with
  | none => exact ackStep_same (fun ack h => by rw [hack] at h; cases h)
  | some ack =>
      by_cases hpending : link ∉ ack.pending
      · simp only [if_pos hpending]
        refine ackStep_same (fun other h => ?_)
        rw [hack] at h
        rw [← Option.some.inj h]
        exact hpending
      simp only [if_neg hpending]
      by_cases hlast : ack.pending.erase link = ∅
      · simp only [if_pos hlast]
        refine
          { retired := rfl
            nextUpdateId := rfl
            nextRetireId := rfl
            back := ?_
            forth := ?_ }
        · intro u other hother
          rw [OrderedMap.get_delete] at hother
          by_cases hu : u = updateId
          · rw [if_pos hu] at hother
            cases hother
          · rw [if_neg hu] at hother
            exact ⟨other, hother, rfl, (if_neg hu).symm, id⟩
        · intro u other hother
          by_cases hu : u = updateId
          · rw [hu, hack] at hother
            rw [← Option.some.inj hother]
            exact Or.inr ⟨hu, hlast, rfl⟩
          · refine Or.inl ⟨other, ?_⟩
            rw [OrderedMap.get_delete_ne _ hu]
            exact hother
      · simp only [if_neg hlast]
        refine
          { retired := rfl
            nextUpdateId := rfl
            nextRetireId := rfl
            back := ?_
            forth := ?_ }
        · intro u other hother
          rw [OrderedMap.get_set] at hother
          by_cases hu : u = updateId
          · rw [if_pos hu] at hother
            rw [← Option.some.inj hother, hu]
            exact ⟨ack, hack, rfl, (if_pos rfl).symm, fun _ => hlast⟩
          · rw [if_neg hu] at hother
            exact ⟨other, hother, rfl, (if_neg hu).symm, id⟩
        · intro u other hother
          refine Or.inl ?_
          rw [OrderedMap.get_set]
          by_cases hu : u = updateId
          · rw [if_pos hu]
            exact ⟨_, rfl⟩
          · rw [if_neg hu]
            exact ⟨other, hother⟩

theorem handleAck_spec (r : Retirement) (updateId : UpdateId) (link : LinkId)
    (retained : List RetireId) :
    HandlerSpec r (r.handleAck updateId link retained).1
      (r.handleAck updateId link retained).2
      (fun holder u => holder = Holder.link link ∧ u = updateId)
      (fun holder id => holder = Holder.link link ∧ id ∈ retained)
      (fun _ _ => False) := by
  rw [handleAck_eq]
  rcases reholds_addHolders (Holder.link link) r retained with ⟨hreholds, hacks⟩
  have hstep := completeAck_step
    (retained.foldl (addHolder (Holder.link link)) r) updateId link
  generalize retained.foldl (addHolder (Holder.link link)) r = held at *
  generalize completeAck held updateId link = result at *
  have hget : forall id, result.1.retired.get id = held.retired.get id := by
    rw [hstep.retired]
    exact fun _ => rfl
  refine
    { has := ?_
      extents := ?_
      nextUpdateId := hstep.nextUpdateId.trans hreholds.nextUpdateId
      nextRetireId := hstep.nextRetireId.trans hreholds.nextRetireId
      awaits := ?_
      held := ?_
      acks := ?_
      bounded := ?_
      waiting := ?_ }
  · intro id entry u
    rw [← hreholds.has]
    unfold Has
    rw [hget]
  · unfold extents
    rw [hstep.retired]
    exact hreholds.extents
  · intro holder u
    constructor
    · rintro ⟨l, ack', hholder, hack', hmem⟩
      rcases hstep.back hack' with ⟨ack, hack, _, hpending, _⟩
      rw [hacks] at hack
      by_cases hu : u = updateId
      · rw [hpending, if_pos hu, Finset.mem_erase] at hmem
        refine ⟨⟨l, ack, hholder, hack, hmem.2⟩, ?_⟩
        rintro ⟨heq, _⟩
        exact hmem.1 (Holder.link.inj (hholder.symm.trans heq))
      · rw [hpending, if_neg hu] at hmem
        exact ⟨⟨l, ack, hholder, hack, hmem⟩, fun hend => hu hend.2⟩
    · rintro ⟨⟨l, ack, hholder, hack, hmem⟩, hkeep⟩
      rw [← hacks] at hack
      rcases hstep.forth hack with ⟨ack', hack'⟩ | ⟨hu, hempty, _⟩
      · rcases hstep.back hack' with ⟨old, hold, _, hpending, _⟩
        rw [hack] at hold
        rw [← Option.some.inj hold] at hpending
        refine ⟨l, ack', hholder, hack', ?_⟩
        by_cases hu : u = updateId
        · rw [hpending, if_pos hu, Finset.mem_erase]
          refine ⟨fun heq => hkeep ⟨?_, hu⟩, hmem⟩
          rw [hholder, heq]
        · rw [hpending, if_neg hu]
          exact hmem
      · by_cases hl : l = link
        · exact absurd ⟨by rw [hholder, hl], hu⟩ hkeep
        · have hin : l ∈ ack.pending.erase link := Finset.mem_erase.mpr ⟨hl, hmem⟩
          rw [hempty] at hin
          cases hin
  · intro id holder
    have hheld : result.1.HeldBy id holder <-> held.HeldBy id holder := by
      unfold HeldBy
      rw [hget]
    rw [hheld, hreholds.heldBy]
    unfold HeldBy Has
    constructor
    · rintro ⟨record, hrecord, hmem⟩
      by_cases hid : id ∈ retained
      · rw [if_pos hid] at hmem
        rcases Finset.mem_insert.mp hmem with heq | hmem
        · exact Or.inr ⟨⟨heq, hid⟩, _, _, record, hrecord, rfl, rfl⟩
        · exact Or.inl ⟨⟨record, hrecord, hmem⟩, fun hfalse => hfalse⟩
      · rw [if_neg hid] at hmem
        exact Or.inl ⟨⟨record, hrecord, hmem⟩, fun hfalse => hfalse⟩
    · rintro (⟨⟨record, hrecord, hmem⟩, _⟩ | ⟨⟨heq, hid⟩, _, _, record, hrecord, _⟩)
      · refine ⟨record, hrecord, ?_⟩
        split_ifs
        · exact Finset.mem_insert_of_mem hmem
        · exact hmem
      · refine ⟨record, hrecord, ?_⟩
        rw [if_pos hid, heq]
        exact Finset.mem_insert_self _ _
  · intro u ack' hack'
    rcases hstep.back hack' with ⟨ack, hack, _⟩
    exact ⟨ack, hacks ▸ hack⟩
  · intro hbounded
    have hheld := hreholds.bounded hbounded (fun hack => ⟨_, hacks ▸ hack⟩)
    refine { acks := ?_, retired := ?_ }
    · intro u ack' hack'
      rcases hstep.back hack' with ⟨ack, hack, _⟩
      rw [hstep.nextUpdateId]
      exact hheld.acks hack
    · intro id record hid
      rw [hget] at hid
      rw [hstep.nextUpdateId, hstep.nextRetireId]
      exact hheld.retired hid
  · intro hwaiting
    have hold : forall {id record'}, result.1.retired.get id = some record' ->
        exists record, r.retired.get id = some record ∧
          record'.updateId = record.updateId ∧
          (record.holders ≠ ∅ -> record'.holders ≠ ∅) := by
      intro id record' hid
      rw [hget, hreholds.get id] at hid
      rcases Option.map_eq_some_iff.mp hid with ⟨record, hrecord, heq⟩
      refine ⟨record, hrecord, by rw [← heq], ?_⟩
      intro hne
      rw [← heq]
      show (if id ∈ retained then insert (Holder.link link) record.holders
        else record.holders) ≠ ∅
      split_ifs
      · exact Finset.insert_ne_empty _ _
      · exact hne
    refine { waits := ?_, pending := ?_, listed := ?_ }
    · intro id record' hid
      rcases hold hid with ⟨record, hrecord, hupdate, hholders⟩
      rcases hwaiting.waits hrecord with hne | hack | hnil
      · exact Or.inl (hholders hne)
      · rcases OrderedMap.has_iff.mp hack with ⟨ack, hack⟩
        have hheld : held.acks.get record.updateId = some ack := by
          rw [hacks]
          exact hack
        rcases hstep.forth hheld with hkept | ⟨_, _, hids⟩
        · rw [hupdate]
          exact Or.inr (Or.inl (OrderedMap.has_iff.mpr hkept))
        · rw [hids]
          exact Or.inr (Or.inr (hwaiting.listed hack hrecord rfl))
      · cases hnil
    · intro u ack' hack'
      rcases hstep.back hack' with ⟨ack, hack, _, _, hpending⟩
      rw [hacks] at hack
      exact hpending (hwaiting.pending hack)
    · intro u ack' id record' hack' hid hupdate
      rcases hstep.back hack' with ⟨ack, hack, hretired, _⟩
      rcases hold hid with ⟨record, hrecord, heq, _⟩
      rw [hacks] at hack
      rw [hretired]
      exact hwaiting.listed hack hrecord (heq.symm.trans hupdate)

theorem exitAck_some {link : LinkId} {ack ack' : Ack} (h : exitAck link ack = some ack') :
    ack'.retired = ack.retired ∧ ack'.pending = ack.pending.erase link ∧
      (ack.pending ≠ ∅ -> ack'.pending ≠ ∅) := by
  unfold exitAck at h
  by_cases hout : link ∉ ack.pending
  · rw [if_pos hout] at h
    rw [← Option.some.inj h, Finset.erase_eq_of_notMem hout]
    exact ⟨rfl, rfl, id⟩
  rw [if_neg hout] at h
  by_cases hlast : ack.pending.erase link = ∅
  · rw [if_pos hlast] at h
    cases h
  · rw [if_neg hlast] at h
    rw [← Option.some.inj h]
    exact ⟨rfl, rfl, fun _ => hlast⟩

theorem exitAck_none {link : LinkId} {ack : Ack} (h : exitAck link ack = none) :
    ack.pending.erase link = ∅ := by
  by_contra hlast
  unfold exitAck at h
  rw [if_neg hlast] at h
  by_cases hout : link ∉ ack.pending
  · rw [if_pos hout] at h
    cases h
  · rw [if_neg hout] at h
    cases h

theorem handleWorkerExit_spec (r : Retirement) (link : LinkId) :
    HandlerSpec r (r.handleWorkerExit link).1 (r.handleWorkerExit link).2
      (fun holder _ => holder = Holder.link link) (fun _ _ => False)
      (fun holder _ => holder = Holder.link link) := by
  have hreholds : Reholds r (r.handleWorkerExit link).1
      (fun _ old => old.erase (Holder.link link)) :=
    { get := fun id => OrderedMap.get_mapValues _ _ _
      extents := by
        have hmap := OrderedMap.total_mapValues
          (fun (_ : RetireId) (record : Record) =>
            { record with holders := record.holders.erase (Holder.link link) })
          r.retired (fun record => record.entry.extents)
          (fun record => record.entry.extents) (fun _ _ => rfl)
        exact hmap
      nextUpdateId := rfl
      nextRetireId := rfl }
  have hacks : forall u, (r.handleWorkerExit link).1.acks.get u =
      (r.acks.get u).bind (exitAck link) := by
    intro u
    exact OrderedMap.get_filterMapValues _ _ _
  refine
    { has := hreholds.has
      extents := hreholds.extents
      nextUpdateId := rfl
      nextRetireId := rfl
      awaits := ?_
      held := ?_
      acks := ?_
      bounded := ?_
      waiting := ?_ }
  · intro holder u
    unfold Awaits
    rw [hacks]
    constructor
    · rintro ⟨l, ack', hholder, hack', hmem⟩
      rcases Option.bind_eq_some_iff.mp hack' with ⟨ack, hack, hexit⟩
      rw [(exitAck_some hexit).2.1, Finset.mem_erase] at hmem
      refine ⟨⟨l, ack, hholder, hack, hmem.2⟩, ?_⟩
      intro heq
      exact hmem.1 (Holder.link.inj (hholder.symm.trans heq))
    · rintro ⟨⟨l, ack, hholder, hack, hmem⟩, hne⟩
      have hin : l ∈ ack.pending.erase link :=
        Finset.mem_erase.mpr ⟨fun heq => hne (by rw [hholder, heq]), hmem⟩
      cases hexit : exitAck link ack with
      | none =>
          rw [exitAck_none hexit] at hin
          cases hin
      | some ack' =>
          refine ⟨l, ack', hholder, ?_, ?_⟩
          · rw [hack]
            exact hexit
          · rw [(exitAck_some hexit).2.1]
            exact hin
  · intro id holder
    rw [hreholds.heldBy]
    unfold HeldBy
    constructor
    · rintro ⟨record, hget, hmem⟩
      rw [Finset.mem_erase] at hmem
      exact Or.inl ⟨⟨record, hget, hmem.2⟩, hmem.1⟩
    · rintro (⟨⟨record, hget, hmem⟩, hne⟩ | ⟨hfalse, _⟩)
      · exact ⟨record, hget, Finset.mem_erase.mpr ⟨hne, hmem⟩⟩
      · exact hfalse.elim
  · intro u ack' hack'
    rw [hacks] at hack'
    rcases Option.bind_eq_some_iff.mp hack' with ⟨ack, hack, _⟩
    exact ⟨ack, hack⟩
  · intro hbounded
    refine hreholds.bounded hbounded ?_
    intro u ack' hack'
    rw [hacks] at hack'
    rcases Option.bind_eq_some_iff.mp hack' with ⟨ack, hack, _⟩
    exact ⟨ack, hack⟩
  · intro hwaiting
    have hold : forall {id record'},
        (r.handleWorkerExit link).1.retired.get id = some record' ->
        exists record, r.retired.get id = some record ∧
          record'.updateId = record.updateId ∧
          record'.holders = record.holders.erase (Holder.link link) := by
      intro id record' hid
      rw [hreholds.get id] at hid
      rcases Option.map_eq_some_iff.mp hid with ⟨record, hrecord, heq⟩
      exact ⟨record, hrecord, by rw [← heq], by rw [← heq]⟩
    refine { waits := ?_, pending := ?_, listed := ?_ }
    · intro id record' hid
      rcases hold hid with ⟨record, hrecord, hupdate, hholders⟩
      rcases hwaiting.waits hrecord with hne | hack | hnil
      · by_cases hmem : Holder.link link ∈ record.holders
        · refine Or.inr (Or.inr (List.mem_append_right _ ?_))
          exact List.mem_map.mpr ⟨(id, record), List.mem_filter.mpr
            ⟨OrderedMap.mem_entries_iff.mpr hrecord, by simpa using hmem⟩, rfl⟩
        · rw [hholders, Finset.erase_eq_of_notMem hmem]
          exact Or.inl hne
      · rcases OrderedMap.has_iff.mp hack with ⟨ack, hack⟩
        cases hexit : exitAck link ack with
        | none =>
            refine Or.inr (Or.inr (List.mem_append_left _ ?_))
            refine List.mem_flatMap.mpr ⟨ack, List.mem_filter.mpr ⟨?_, ?_⟩, ?_⟩
            · exact OrderedMap.mem_values_iff.mpr ⟨_, hack⟩
            · rw [hexit]
              rfl
            · exact hwaiting.listed hack hrecord rfl
        | some ack' =>
            refine Or.inr (Or.inl (OrderedMap.has_iff.mpr ⟨ack', ?_⟩))
            rw [hacks, hupdate, hack]
            exact hexit
      · cases hnil
    · intro u ack' hack'
      rw [hacks] at hack'
      rcases Option.bind_eq_some_iff.mp hack' with ⟨ack, hack, hexit⟩
      exact (exitAck_some hexit).2.2 (hwaiting.pending hack)
    · intro u ack' id record' hack' hid hupdate
      rw [hacks] at hack'
      rcases Option.bind_eq_some_iff.mp hack' with ⟨ack, hack, hexit⟩
      rcases hold hid with ⟨record, hrecord, heq, _⟩
      rw [(exitAck_some hexit).1]
      exact hwaiting.listed hack hrecord (heq.symm.trans hupdate)

/-!
# Retiring
-/

/-- What retiring the replaced versions of an update does. -/
structure RetireSpec (r : Retirement) (updateId : UpdateId) (olds : List (Slot × Entry))
    (r' : Retirement) (retired : List (Slot × RetireId)) : Prop where
  acks : r'.acks = r.acks
  nextUpdateId : r'.nextUpdateId = r.nextUpdateId
  nextRetireId : r.nextRetireId ≤ r'.nextRetireId
  slots : retired.map Prod.fst = olds.map Prod.fst
  fresh : forall {slot id}, (slot, id) ∈ retired ->
    r.nextRetireId < id ∧ id ≤ r'.nextRetireId
  nodup : (retired.map Prod.snd).Nodup
  kept : forall {id}, id ≤ r.nextRetireId -> r'.retired.get id = r.retired.get id
  added : forall {slot id}, (slot, id) ∈ retired -> exists entry,
    (slot, entry) ∈ olds ∧ r'.retired.get id = some
      { updateId := updateId, slot := slot, entry := entry, holders := ∅ }
  back : forall {id record}, r'.retired.get id = some record ->
    r.retired.get id = some record ∨
      (id ∈ retired.map Prod.snd ∧ record.updateId = updateId ∧ record.holders = ∅)
  extents : r'.extents =
    r.extents + (olds.map (fun old => old.2.extents)).sum

theorem retire_spec {r : Retirement} (h : forall {id record},
    r.retired.get id = some record -> id ≤ r.nextRetireId)
    (updateId : UpdateId) (olds : List (Slot × Entry)) :
    RetireSpec r updateId olds (retire updateId r olds).1 (retire updateId r olds).2 := by
  induction olds generalizing r with
  | nil =>
      exact
        { acks := rfl
          nextUpdateId := rfl
          nextRetireId := le_rfl
          slots := rfl
          fresh := fun hmem => by cases hmem
          nodup := List.nodup_nil
          kept := fun _ => rfl
          added := fun hmem => by cases hmem
          back := fun hget => Or.inl hget
          extents := (add_zero _).symm }
  | cons old rest ih =>
      rcases old with ⟨slot, entry⟩
      let record : Record :=
        { updateId := updateId, slot := slot, entry := entry, holders := ∅ }
      let r₁ : Retirement :=
        { r with
          retired := r.retired.set (r.nextRetireId + 1) record
          nextRetireId := r.nextRetireId + 1 }
      have hget : forall id, r₁.retired.get id =
          if id = r.nextRetireId + 1 then some record else r.retired.get id :=
        fun id => OrderedMap.get_set _ _ _ _
      have hbound : forall {id other}, r₁.retired.get id = some other ->
          id ≤ r₁.nextRetireId := by
        intro id other hid
        rw [hget] at hid
        by_cases heq : id = r.nextRetireId + 1
        · exact le_of_eq heq
        · rw [if_neg heq] at hid
          exact (h hid).trans (Nat.le_succ _)
      have hspec := ih (r := r₁) hbound
      have hstep : retire updateId r ((slot, entry) :: rest) =
          ((retire updateId r₁ rest).1,
            (slot, r.nextRetireId + 1) :: (retire updateId r₁ rest).2) := rfl
      have hnone : r.retired.get (r.nextRetireId + 1) = none := by
        cases hsome : r.retired.get (r.nextRetireId + 1) with
        | none => rfl
        | some other => exact absurd (h hsome) (Nat.not_succ_le_self _)
      have hnext : r.nextRetireId + 1 ≤ (retire updateId r₁ rest).1.nextRetireId :=
        hspec.nextRetireId
      have hlater : forall {s id}, (s, id) ∈ (retire updateId r₁ rest).2 ->
          r.nextRetireId + 1 < id := fun hmem => (hspec.fresh hmem).1
      rw [hstep]
      refine
        { acks := hspec.acks
          nextUpdateId := hspec.nextUpdateId
          nextRetireId := (Nat.le_succ _).trans hnext
          slots := ?_
          fresh := ?_
          nodup := ?_
          kept := ?_
          added := ?_
          back := ?_
          extents := ?_ }
      · rw [List.map_cons, List.map_cons, hspec.slots]
      · intro s id hmem
        rcases List.mem_cons.mp hmem with heq | hrest
        · rw [(Prod.mk.inj heq).2]
          exact ⟨Nat.lt_succ_self _, hnext⟩
        · have hfresh := hspec.fresh hrest
          exact ⟨(Nat.lt_succ_self _).trans hfresh.1, hfresh.2⟩
      · refine List.nodup_cons.mpr ⟨?_, hspec.nodup⟩
        intro hmem
        rcases List.mem_map.mp hmem with ⟨⟨s, id⟩, hin, hid⟩
        exact Nat.ne_of_gt (hlater hin) hid
      · intro id hle
        rw [hspec.kept (hle.trans (Nat.le_succ _)), hget,
          if_neg (Nat.ne_of_lt (Nat.lt_succ_of_le hle))]
      · intro s id hmem
        rcases List.mem_cons.mp hmem with heq | hrest
        · rcases Prod.mk.inj heq with ⟨hslot, hid⟩
          refine ⟨entry, by rw [hslot]; exact List.mem_cons_self, ?_⟩
          rw [hid, hspec.kept le_rfl, hget, if_pos rfl, hslot]
        · rcases hspec.added hrest with ⟨old, hold, hadded⟩
          exact ⟨old, List.mem_cons_of_mem _ hold, hadded⟩
      · intro id other hid
        rcases hspec.back hid with hold | ⟨hmem, hrecord⟩
        · rw [hget] at hold
          by_cases heq : id = r.nextRetireId + 1
          · rw [if_pos heq] at hold
            rw [← Option.some.inj hold]
            exact Or.inr ⟨by simp [heq], rfl, rfl⟩
          · rw [if_neg heq] at hold
            exact Or.inl hold
        · exact Or.inr ⟨List.mem_cons_of_mem _ hmem, hrecord⟩
      · rw [hspec.extents]
        have hset : r₁.extents = r.extents + entry.extents :=
          OrderedMap.total_set_new hnone record (fun record => record.entry.extents)
        rw [hset, List.map_cons, List.sum_cons, add_assoc]

/-!
# Settling
-/

/-- What freeing the settled records among {lit}`ids` does. -/
structure SweepSpec (r : Retirement) (ids : List RetireId) (r' : Retirement)
    (freed : List Entry) : Prop where
  acks : r'.acks = r.acks
  nextUpdateId : r'.nextUpdateId = r.nextUpdateId
  nextRetireId : r'.nextRetireId = r.nextRetireId
  back : forall {id record}, r'.retired.get id = some record ->
    r.retired.get id = some record
  kept : forall {id record}, r.retired.get id = some record ->
    record.holders ≠ ∅ ∨ r.acks.has record.updateId = true ->
    r'.retired.get id = some record
  gone : forall {id record}, id ∈ ids -> r'.retired.get id = some record ->
    record.holders ≠ ∅ ∨ r.acks.has record.updateId = true
  extents : r.extents = r'.extents + (freed.map Entry.extents).sum

theorem sweep_spec (r : Retirement) (ids : List RetireId) :
    SweepSpec r ids (r.sweep ids).1 (r.sweep ids).2 := by
  induction ids generalizing r with
  | nil =>
      exact
        { acks := rfl
          nextUpdateId := rfl
          nextRetireId := rfl
          back := id
          kept := fun hget _ => hget
          gone := fun hmem => by cases hmem
          extents := (add_zero _).symm }
  | cons id rest ih =>
      unfold sweep
      cases hsettled : r.settled id with
      | none =>
          have hspec := ih r
          refine
            { acks := hspec.acks
              nextUpdateId := hspec.nextUpdateId
              nextRetireId := hspec.nextRetireId
              back := hspec.back
              kept := hspec.kept
              gone := ?_
              extents := hspec.extents }
          intro i record hmem hget
          rcases List.mem_cons.mp hmem with heq | hmem
          · have hold := hspec.back hget
            unfold settled at hsettled
            rw [heq] at hold
            rw [hold] at hsettled
            by_contra hnot
            simp only [if_neg hnot] at hsettled
            cases hsettled
          · exact hspec.gone hmem hget
      | some record =>
          have hrecord : r.retired.get id = some record ∧
              ¬ (record.holders ≠ ∅ ∨ r.acks.has record.updateId = true) := by
            unfold settled at hsettled
            cases hget : r.retired.get id with
            | none => simp [hget] at hsettled
            | some found =>
                simp only [hget] at hsettled
                split_ifs at hsettled with hwait
                rw [← Option.some.inj hsettled]
                exact ⟨rfl, hwait⟩
          have hspec := ih (r.forget id)
          have hget : forall i, (r.forget id).retired.get i =
              if i = id then none else r.retired.get i :=
            fun i => OrderedMap.get_delete _ _ _
          refine
            { acks := hspec.acks
              nextUpdateId := hspec.nextUpdateId
              nextRetireId := hspec.nextRetireId
              back := ?_
              kept := ?_
              gone := ?_
              extents := ?_ }
          · intro i other hi
            have hold := hspec.back hi
            rw [hget] at hold
            by_cases heq : i = id
            · rw [if_pos heq] at hold
              cases hold
            · rw [if_neg heq] at hold
              exact hold
          · intro i other hi hwait
            have hne : i ≠ id := by
              intro heq
              rw [heq, hrecord.1] at hi
              rw [← Option.some.inj hi] at hwait
              exact hrecord.2 hwait
            refine hspec.kept ?_ hwait
            rw [hget, if_neg hne]
            exact hi
          · intro i other hmem hi
            have hold := hspec.back hi
            rw [hget] at hold
            rcases List.mem_cons.mp hmem with heq | hmem
            · rw [if_pos heq] at hold
              cases hold
            · exact hspec.gone hmem hi
          · have hdelete := OrderedMap.total_delete r.retired id
              (fun record => record.entry.extents)
            rw [hrecord.1, Option.elim_some] at hdelete
            show r.retired.total _ = _
            rw [← hdelete, List.map_cons, List.sum_cons]
            have hrest : (r.retired.delete id).total
                (fun record => record.entry.extents) = _ := hspec.extents
            rw [hrest]
            abel

theorem SweepSpec.keeps {r r' : Retirement} {ids : List RetireId} {freed : List Entry}
    (h : SweepSpec r ids r' freed) (holder : Holder) : Keeps holder r r' where
  awaits := by
    intro u hold
    unfold Awaits
    rw [h.acks]
    exact hold
  held := by
    rintro id ⟨record, hget, hmem⟩
    exact ⟨record, h.kept hget (Or.inl (Finset.ne_empty_of_mem hmem)), hmem⟩
  has := by
    rintro id entry u ⟨record, hget, hentry, hupdate⟩ hwait
    refine ⟨record, h.kept hget ?_, hentry, hupdate⟩
    rcases hwait with ⟨other, hother, hmem⟩ | ⟨_, ack, _, hack, _⟩
    · rw [hget] at hother
      rw [Option.some.inj hother]
      exact Or.inl (Finset.ne_empty_of_mem hmem)
    · rw [hupdate]
      exact Or.inr (OrderedMap.has_iff.mpr ⟨ack, hack⟩)

theorem SweepSpec.bounded {r r' : Retirement} {ids : List RetireId} {freed : List Entry}
    (h : SweepSpec r ids r' freed) (hbounded : r.Bounded) : r'.Bounded where
  acks := by
    rw [h.acks, h.nextUpdateId]
    exact hbounded.acks
  retired := by
    intro id record hget
    rw [h.nextRetireId, h.nextUpdateId]
    exact hbounded.retired (h.back hget)

theorem SweepSpec.advance {r r' : Retirement} {ids : List RetireId} {freed : List Entry}
    (h : SweepSpec r ids r' freed) : Advance r r' where
  nextUpdateId := h.nextUpdateId
  nextRetireId := h.nextRetireId
  awaits := by
    intro holder u hwait
    unfold Awaits at *
    rw [h.acks] at hwait
    exact hwait
  acks := fun hack => ⟨_, h.acks ▸ hack⟩
  listed := by
    rintro id entry u ack ⟨record, hget, hentry, hupdate⟩ hack
    refine ⟨record, h.kept hget (Or.inr ?_), hentry, hupdate⟩
    rw [hupdate, ← h.acks]
    exact OrderedMap.has_iff.mpr ⟨ack, hack⟩
  bounded := h.bounded

/-- After the sweep every record left waits for an ACK or a holder. -/
theorem SweepSpec.waiting {r r' : Retirement} {ids : List RetireId} {freed : List Entry}
    (h : SweepSpec r ids r' freed) (hwaiting : r.Waiting ids) : r'.Waiting [] where
  waits := by
    intro id record hget
    rw [h.acks]
    rcases hwaiting.waits (h.back hget) with hne | hack | hmem
    · exact Or.inl hne
    · exact Or.inr (Or.inl hack)
    · exact (h.gone hmem hget).imp_right Or.inl
  pending := by
    rw [h.acks]
    exact hwaiting.pending
  listed := by
    rw [h.acks]
    exact fun hack hget => hwaiting.listed hack (h.back hget)

/-!
# Announcing

One update as the retirement sees it: the replaced versions get records, the
main thread's consumers become holders, and every link owes an ACK.
-/

structure AnnounceSpec (r : Retirement) (links : Finset LinkId)
    (olds : List (Slot × Entry)) (retired : List (Slot × RetireId))
    (retained : List RetireId) (r' : Retirement) (ids : List RetireId) : Prop where
  nextUpdateId : r'.nextUpdateId = r.nextUpdateId + 1
  nextRetireId : r.nextRetireId ≤ r'.nextRetireId
  keeps : forall holder, Keeps holder r r'
  has : forall {id entry updateId}, r.Has id entry updateId -> r'.Has id entry updateId
  fresh : forall {slot id}, (slot, id) ∈ retired ->
    r.nextRetireId < id ∧ id ≤ r'.nextRetireId
  nodup : (retired.map Prod.snd).Nodup
  slots : retired.map Prod.fst = olds.map Prod.fst
  added : forall {slot id}, (slot, id) ∈ retired -> exists entry,
    (slot, entry) ∈ olds ∧ r'.Has id entry (r.nextUpdateId + 1)
  awaits : forall {holder updateId}, r'.Awaits holder updateId <->
    r.Awaits holder updateId ∨
      (updateId = r.nextUpdateId + 1 ∧ retired ≠ [] ∧
        exists link, link ∈ links ∧ holder = Holder.link link)
  main : forall {id}, id ∈ retained -> r'.HeldBy id Holder.main
  held : forall {id holder}, r'.HeldBy id holder ->
    r.HeldBy id holder ∨ (holder = Holder.main ∧ id ∈ retained)
  acks : forall {updateId ack'}, r'.acks.get updateId = some ack' ->
    (exists ack, r.acks.get updateId = some ack) ∨ updateId = r.nextUpdateId + 1
  bounded : r'.Bounded
  extents : r'.extents = r.extents + (olds.map (fun old => old.2.extents)).sum
  waiting : r.Waiting [] -> r'.Waiting ids

/-- The effect of {lit}`track` on the pending ACKs. -/
structure TrackSpec (r : Retirement) (links : Finset LinkId) (updateId : UpdateId)
    (retired : List RetireId) (r' : Retirement) (ids : List RetireId) : Prop where
  retired_eq : r'.retired = r.retired
  nextUpdateId : r'.nextUpdateId = r.nextUpdateId
  nextRetireId : r'.nextRetireId = r.nextRetireId
  kept : forall {u}, u ≠ updateId -> r'.acks.get u = r.acks.get u
  new : r.acks.get updateId = none ->
    (r'.acks.get updateId = some { pending := links, retired := retired } ∧
        retired ≠ [] ∧ links ≠ ∅) ∨
      (r'.acks.get updateId = none ∧ (retired = [] ∨ links = ∅) ∧ ids = retired)

theorem track_spec (r : Retirement) (links : Finset LinkId) (updateId : UpdateId)
    (retired : List RetireId) :
    TrackSpec r links updateId retired (r.track links updateId retired).1
      (r.track links updateId retired).2 := by
  unfold track
  by_cases hnil : retired = []
  · rw [if_pos hnil]
    exact
      { retired_eq := rfl
        nextUpdateId := rfl
        nextRetireId := rfl
        kept := fun _ => rfl
        new := fun hnone => Or.inr ⟨hnone, Or.inl hnil, hnil.symm⟩ }
  rw [if_neg hnil]
  by_cases hlinks : links = ∅
  · rw [if_pos hlinks]
    exact
      { retired_eq := rfl
        nextUpdateId := rfl
        nextRetireId := rfl
        kept := fun _ => rfl
        new := fun hnone => Or.inr ⟨hnone, Or.inr hlinks, rfl⟩ }
  · rw [if_neg hlinks]
    exact
      { retired_eq := rfl
        nextUpdateId := rfl
        nextRetireId := rfl
        kept := fun hne => OrderedMap.get_set_ne _ _ hne
        new := fun _ => Or.inl ⟨OrderedMap.get_set_self _ _ _, hnil, hlinks⟩ }

theorem announce_spec {r : Retirement} (h : r.Bounded) (links : Finset LinkId)
    (olds : List (Slot × Entry)) {retained : List RetireId}
    (hretained : forall id, id ∈ retained ->
      id ∈ ((retire (r.nextUpdateId + 1)
        { r with nextUpdateId := r.nextUpdateId + 1 } olds).2.map Prod.snd)) :
    let retired := retire (r.nextUpdateId + 1)
      { r with nextUpdateId := r.nextUpdateId + 1 } olds
    let tracked := (retained.foldl (addHolder Holder.main) retired.1).track links
      (r.nextUpdateId + 1) (retired.2.map Prod.snd)
    AnnounceSpec r links olds retired.2 retained tracked.1 tracked.2 := by
  have hretire := retire_spec (r := { r with nextUpdateId := r.nextUpdateId + 1 })
    (fun hget => (h.retired hget).1) (r.nextUpdateId + 1) olds
  generalize retire (r.nextUpdateId + 1)
    { r with nextUpdateId := r.nextUpdateId + 1 } olds = retired at *
  rcases reholds_addHolders Holder.main retired.1 retained with ⟨hreholds, hacks⟩
  have htrack := track_spec (retained.foldl (addHolder Holder.main) retired.1) links
    (r.nextUpdateId + 1) (retired.2.map Prod.snd)
  simp only
  generalize retained.foldl (addHolder Holder.main) retired.1 = held at *
  generalize held.track links (r.nextUpdateId + 1) (retired.2.map Prod.snd) = tracked at *
  have hheldAcks : held.acks = r.acks := hacks.trans hretire.acks
  have hfreshAck : r.acks.get (r.nextUpdateId + 1) = none := by
    cases hget : r.acks.get (r.nextUpdateId + 1) with
    | none => rfl
    | some ack => exact absurd (h.acks hget) (Nat.not_succ_le_self _)
  have hnew := htrack.new (by rw [hheldAcks]; exact hfreshAck)
  have hold : forall {u}, u ≠ r.nextUpdateId + 1 ->
      tracked.1.acks.get u = r.acks.get u := by
    intro u hu
    rw [htrack.kept hu, hheldAcks]
  -- Old records, up to nothing; new ones, up to the main thread's holding them.
  have holdRecord : forall {id record}, r.retired.get id = some record ->
      retired.1.retired.get id = some record := by
    intro id record hget
    rw [hretire.kept (h.retired hget).1]
    exact hget
  have hget : forall id, tracked.1.retired.get id = (retired.1.retired.get id).map
      (fun record =>
        { record with
          holders := if id ∈ retained then insert Holder.main record.holders
            else record.holders }) := by
    intro id
    rw [htrack.retired_eq, hreholds.get id]
  have hfreshId : forall {id record}, r.retired.get id = some record ->
      id ∉ retained := by
    intro id record hrecord hmem
    rcases List.mem_map.mp (hretained id hmem) with ⟨⟨slot, i⟩, hin, hi⟩
    have hi : i = id := hi
    have hlt := (hretire.fresh hin).1
    rw [hi] at hlt
    exact absurd (h.retired hrecord).1 (Nat.not_le_of_lt hlt)
  have hkeptRecord : forall {id record}, r.retired.get id = some record ->
      tracked.1.retired.get id = some record := by
    intro id record hrecord
    rw [hget, holdRecord hrecord]
    simp [hfreshId hrecord]
  have hawaits : forall {holder u}, tracked.1.Awaits holder u <->
      r.Awaits holder u ∨ (u = r.nextUpdateId + 1 ∧ retired.2 ≠ [] ∧
        exists link, link ∈ links ∧ holder = Holder.link link) := by
    intro holder u
    unfold Awaits
    by_cases hu : u = r.nextUpdateId + 1
    · subst hu
      rw [hfreshAck]
      rcases hnew with ⟨hsome, hne, _⟩ | ⟨hnone, hempty, _⟩
      · rw [hsome]
        have hne : retired.2 ≠ [] := fun heq => hne (by rw [heq]; rfl)
        constructor
        · rintro ⟨link, ack, hholder, hack, hmem⟩
          rw [← Option.some.inj hack] at hmem
          exact Or.inr ⟨rfl, hne, link, hmem, hholder⟩
        · rintro (⟨_, _, _, hfalse, _⟩ | ⟨_, _, link, hmem, hholder⟩)
          · cases hfalse
          · exact ⟨link, _, hholder, rfl, hmem⟩
      · rw [hnone]
        constructor
        · rintro ⟨_, _, _, hfalse, _⟩
          cases hfalse
        · rintro (⟨_, _, _, hfalse, _⟩ | ⟨_, hne, link, hmem, _⟩)
          · cases hfalse
          · rcases hempty with hnil | hnil
            · exact absurd (List.map_eq_nil_iff.mp hnil) hne
            · rw [hnil] at hmem
              cases hmem
    · rw [hold hu]
      constructor
      · exact Or.inl
      · rintro (hwait | ⟨heq, _⟩)
        · exact hwait
        · exact absurd heq hu
  refine
    { nextUpdateId := ?_
      nextRetireId := ?_
      keeps := ?_
      has := ?_
      fresh := ?_
      nodup := hretire.nodup
      slots := hretire.slots
      added := ?_
      awaits := hawaits
      main := ?_
      held := ?_
      acks := ?_
      bounded := ?_
      extents := ?_
      waiting := ?_ }
  · rw [htrack.nextUpdateId, hreholds.nextUpdateId, hretire.nextUpdateId]
  · rw [htrack.nextRetireId, hreholds.nextRetireId]
    exact hretire.nextRetireId
  · intro holder
    exact
      { awaits := fun hwait => hawaits.mpr (Or.inl hwait)
        held := by
          rintro id ⟨record, hrecord, hmem⟩
          exact ⟨record, hkeptRecord hrecord, hmem⟩
        has := by
          rintro id entry u ⟨record, hrecord, hentry⟩ _
          exact ⟨record, hkeptRecord hrecord, hentry⟩ }
  · rintro id entry u ⟨record, hrecord, hentry⟩
    exact ⟨record, hkeptRecord hrecord, hentry⟩
  · intro slot id hin
    rw [htrack.nextRetireId, hreholds.nextRetireId]
    exact hretire.fresh hin
  · intro slot id hin
    rcases hretire.added hin with ⟨entry, hentry, hrecord⟩
    have hnewRecord := hget id
    rw [hrecord] at hnewRecord
    exact ⟨entry, hentry, _, hnewRecord, rfl, rfl⟩
  · intro id hid
    rcases List.mem_map.mp (hretained id hid) with ⟨⟨slot, i⟩, hin, hi⟩
    have hi : i = id := hi
    subst hi
    rcases hretire.added hin with ⟨entry, _, hrecord⟩
    refine ⟨_, by rw [hget, hrecord]; rfl, ?_⟩
    show Holder.main ∈ if i ∈ retained then insert Holder.main ∅ else ∅
    rw [if_pos hid]
    exact Finset.mem_insert_self _ _
  · rintro id holder ⟨record, hrecord, hmem⟩
    rw [hget] at hrecord
    rcases Option.map_eq_some_iff.mp hrecord with ⟨old, hmid, heq⟩
    rw [← heq] at hmem
    have hmem : holder ∈ if id ∈ retained then insert Holder.main old.holders
      else old.holders := hmem
    have hcases : holder ∈ old.holders ∨ (holder = Holder.main ∧ id ∈ retained) := by
      by_cases hid : id ∈ retained
      · rw [if_pos hid] at hmem
        rcases Finset.mem_insert.mp hmem with heq | hin
        · exact Or.inr ⟨heq, hid⟩
        · exact Or.inl hin
      · rw [if_neg hid] at hmem
        exact Or.inl hmem
    rcases hcases with hin | hmain
    · rcases hretire.back hmid with hrecord | ⟨_, _, hempty⟩
      · exact Or.inl ⟨old, hrecord, hin⟩
      · rw [hempty] at hin
        cases hin
    · exact Or.inr hmain
  · intro u ack hack
    by_cases hu : u = r.nextUpdateId + 1
    · exact Or.inr hu
    · rw [hold hu] at hack
      exact Or.inl ⟨ack, hack⟩
  · refine { acks := ?_, retired := ?_ }
    · intro u ack hack
      rw [htrack.nextUpdateId, hreholds.nextUpdateId, hretire.nextUpdateId]
      by_cases hu : u = r.nextUpdateId + 1
      · exact le_of_eq hu
      · rw [hold hu] at hack
        exact (h.acks hack).trans (Nat.le_succ _)
    · intro id record hrecord
      rw [htrack.nextUpdateId, hreholds.nextUpdateId, hretire.nextUpdateId,
        htrack.nextRetireId, hreholds.nextRetireId]
      rw [hget] at hrecord
      rcases Option.map_eq_some_iff.mp hrecord with ⟨old, hmid, heq⟩
      rw [← heq]
      rcases hretire.back hmid with hrecord | ⟨hin, hupdate, _⟩
      · have hbound := h.retired hrecord
        exact ⟨hbound.1.trans hretire.nextRetireId, hbound.2.trans (Nat.le_succ _)⟩
      · rcases List.mem_map.mp hin with ⟨⟨slot, i⟩, hmem, hi⟩
        have hi : i = id := hi
        rw [← hi]
        exact ⟨(hretire.fresh hmem).2, le_of_eq hupdate⟩
  · unfold extents
    rw [htrack.retired_eq]
    exact hreholds.extents.trans hretire.extents
  · intro hwaiting
    have hcases : forall {id record}, tracked.1.retired.get id = some record ->
        (exists old, r.retired.get id = some old ∧ record = old) ∨
          (id ∈ retired.2.map Prod.snd ∧ record.updateId = r.nextUpdateId + 1) := by
      intro id record hrecord
      rw [hget] at hrecord
      rcases Option.map_eq_some_iff.mp hrecord with ⟨old, hmid, heq⟩
      rcases hretire.back hmid with hrecord' | ⟨hin, hupdate, _⟩
      · refine Or.inl ⟨old, hrecord', ?_⟩
        rw [← heq]
        simp [hfreshId hrecord']
      · refine Or.inr ⟨hin, ?_⟩
        rw [← heq]
        exact hupdate
    refine { waits := ?_, pending := ?_, listed := ?_ }
    · intro id record hrecord
      rcases hcases hrecord with ⟨old, hrecord', heq⟩ | ⟨hin, hupdate⟩
      · rcases hwaiting.waits hrecord' with hne | hack | hnil
        · exact Or.inl (heq ▸ hne)
        · refine Or.inr (Or.inl ?_)
          have hne : old.updateId ≠ r.nextUpdateId + 1 :=
            Nat.ne_of_lt (Nat.lt_succ_of_le (h.retired hrecord').2)
          rw [heq, OrderedMap.has_iff, hold hne]
          exact OrderedMap.has_iff.mp hack
        · cases hnil
      · rcases hnew with ⟨hsome, _⟩ | ⟨_, _, hids⟩
        · refine Or.inr (Or.inl ?_)
          rw [hupdate]
          exact OrderedMap.has_iff.mpr ⟨_, hsome⟩
        · rw [hids]
          exact Or.inr (Or.inr hin)
    · intro u ack hack
      by_cases hu : u = r.nextUpdateId + 1
      · rw [hu] at hack
        rcases hnew with ⟨hsome, _, hlinks⟩ | ⟨hnone, _⟩
        · rw [hsome] at hack
          rw [← Option.some.inj hack]
          exact hlinks
        · rw [hnone] at hack
          cases hack
      · rw [hold hu] at hack
        exact hwaiting.pending hack
    · intro u ack id record hack hrecord hupdate
      by_cases hu : u = r.nextUpdateId + 1
      · rw [hu] at hack
        rcases hnew with ⟨hsome, _⟩ | ⟨hnone, _⟩
        · rw [hsome] at hack
          rw [← Option.some.inj hack]
          rcases hcases hrecord with ⟨old, hrecord', heq⟩ | ⟨hin, _⟩
          · have hle := (h.retired hrecord').2
            rw [← heq, hupdate, hu] at hle
            exact absurd hle (Nat.not_succ_le_self _)
          · exact hin
        · rw [hnone] at hack
          cases hack
      · rw [hold hu] at hack
        rcases hcases hrecord with ⟨old, hrecord', heq⟩ | ⟨_, hupdate'⟩
        · exact hwaiting.listed hack hrecord' (heq ▸ hupdate)
        · exact absurd (hupdate.symm.trans hupdate') hu

end Retirement
end SharedMemoryFs
