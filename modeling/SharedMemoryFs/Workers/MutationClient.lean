import SharedMemoryFs.Workers.MutationRpc

/-!
# The worker's end of mutation requests

One client for each link.  Each {lit}`send` returns a promise; the port is kept
referenced while a request is pending.
-/

namespace SharedMemoryFs

open Foundation

/-- One call of the functions that settle a promise. -/
inductive Settlement where
  | response (request : Nat) (error : Option ErrorRecord)
  | failedPost
  | linkClosed
  /-- The link was closed when {lit}`send` was called. -/
  | refused
deriving DecidableEq, Repr

/-- A promise {lit}`send` returned, and every settlement of it. -/
structure Promised where
  id : Option Nat
  settlements : List Settlement
deriving DecidableEq, Repr

/-- {lit}`pending` names promises by their position in {lit}`promises`. -/
structure MutationClient where
  pending : OrderedMap Nat Nat
  nextId : Nat
  closed : Bool
  refd : Bool
  promises : List Promised

namespace MutationClient

def new : MutationClient :=
  { pending := OrderedMap.empty, nextId := 0, closed := false, refd := false, promises := [] }

def addSettlement (how : Settlement) (promised : Promised) : Promised :=
  { promised with settlements := promised.settlements ++ [how] }

/-- Call the function that settles a promise. -/
def call (c : MutationClient) (promise : Nat) (how : Settlement) : MutationClient :=
  { c with promises := c.promises.modify promise (addSettlement how) }

/-- {lit}`#settle`: a request is no longer pending. -/
def settle (c : MutationClient) (id : Nat) : MutationClient :=
  { c with
    pending := c.pending.delete id
    refd := if (c.pending.delete id).size = 0 then false else c.refd }

/-- A response arrives. -/
def handle (c : MutationClient) (id : Nat) (error : Option ErrorRecord) : MutationClient :=
  match c.pending.get id with
  | none => c
  | some promise => (c.settle id).call promise (Settlement.response id error)

/-- A request that is pending and about to be posted. -/
def request (c : MutationClient) : MutationClient :=
  { c with
    pending := c.pending.set (c.nextId + 1) c.promises.length
    nextId := c.nextId + 1
    refd := if (c.pending.set (c.nextId + 1) c.promises.length).size = 1 then true else c.refd
    promises := c.promises ++ [{ id := some (c.nextId + 1), settlements := [] }] }

/-- {lit}`posted` is false when {lit}`postMessage` throws. -/
def send (c : MutationClient) (posted : Bool) : MutationClient :=
  if c.closed then
    { c with promises := c.promises ++ [{ id := none, settlements := [Settlement.refused] }] }
  else if posted then c.request
  else (c.request.settle (c.nextId + 1)).call c.promises.length Settlement.failedPost

def close (c : MutationClient) : MutationClient :=
  c.pending.values.foldl (fun c promise => c.call promise Settlement.linkClosed)
    { c with closed := true, pending := OrderedMap.empty, refd := false }

inductive Event where
  | send (posted : Bool)
  | response (id : Nat) (error : Option ErrorRecord)
  | close

def step (c : MutationClient) : Event -> MutationClient
  | Event.send posted => c.send posted
  | Event.response id error => c.handle id error
  | Event.close => c.close

def run (events : List Event) : MutationClient := events.foldl step new

/-!
# The invariant
-/

/-- A promise settled once: by the response to its own request, or otherwise. -/
def Once (promised : Promised) : Prop :=
  exists how, promised.settlements = [how] ∧
    forall request error, how = Settlement.response request error ->
      promised.id = some request

structure Sound (c : MutationClient) : Prop where
  pending : forall id promise, c.pending.get id = some promise ->
    id ≤ c.nextId ∧ c.promises[promise]? = some { id := some id, settlements := [] }
  promises : forall (promise : Nat) (promised : Promised),
    c.promises[promise]? = some promised ->
    Once promised ∨ exists id, promised = { id := some id, settlements := [] } ∧
      c.pending.get id = some promise
  refd : c.refd = true <-> c.pending.size ≠ 0
  closed : c.closed = true -> c.pending.size = 0

theorem Sound.new : new.Sound :=
  { pending := fun id promise h => by cases h
    promises := fun promise promised h => by cases h
    refd := iff_of_false nofun (fun h => h rfl)
    closed := fun h => by cases h }

theorem size_ne_zero {m : OrderedMap Nat Nat} {id promise : Nat} (h : m.get id = some promise) :
    m.size ≠ 0 := by
  intro hsize
  rw [OrderedMap.size_eq_zero_iff.mp hsize id] at h
  cases h

/-- A pending request is settled, once and for good. -/
theorem Sound.settled {c : MutationClient} (h : c.Sound) {id promise : Nat}
    (hget : c.pending.get id = some promise) {how : Settlement}
    (hown : forall request error, how = Settlement.response request error -> request = id) :
    ((c.settle id).call promise how).Sound := by
  rcases h.pending id promise hget with ⟨_, hpromise⟩
  have hself : ((c.settle id).call promise how).promises[promise]? =
      some { id := some id, settlements := [how] } := by
    show (c.promises.modify promise (addSettlement how))[promise]? = _
    rw [List.getElem?_modify, hpromise]
    simp [addSettlement]
  have hother : forall other, other ≠ promise ->
      ((c.settle id).call promise how).promises[other]? = c.promises[other]? := by
    intro other hne
    show (c.promises.modify promise (addSettlement how))[other]? = _
    exact List.getElem?_modify_ne _ _ (Ne.symm hne)
  constructor
  · intro other at' hat'
    have hdelete : (c.pending.delete id).get other = some at' := hat'
    rw [OrderedMap.get_delete] at hdelete
    by_cases hid : other = id
    · rw [if_pos hid] at hdelete
      cases hdelete
    · rw [if_neg hid] at hdelete
      rcases h.pending other at' hdelete with ⟨hle, hat⟩
      refine ⟨hle, ?_⟩
      rw [hother]
      · exact hat
      · intro heq
        rw [heq, hpromise] at hat
        cases hat
        exact absurd rfl hid
  · intro other promised hpromised
    by_cases hne : other = promise
    · rw [hne, hself] at hpromised
      rw [← Option.some.inj hpromised]
      refine Or.inl ⟨how, rfl, ?_⟩
      intro request error heq
      rw [hown request error heq]
    · rw [hother other hne] at hpromised
      rcases h.promises other promised hpromised with honce | ⟨other', heq, hget'⟩
      · exact Or.inl honce
      · refine Or.inr ⟨other', heq, ?_⟩
        show (c.pending.delete id).get other' = some other
        rw [OrderedMap.get_delete, if_neg]
        · exact hget'
        · intro hid
          rw [hid, hget] at hget'
          exact hne (Option.some.inj hget').symm
  · show (if (c.pending.delete id).size = 0 then false else c.refd) = true <->
      (c.pending.delete id).size ≠ 0
    by_cases hsize : (c.pending.delete id).size = 0
    · rw [if_pos hsize]
      exact iff_of_false nofun (fun hne => hne hsize)
    · rw [if_neg hsize]
      exact iff_of_true (h.refd.mpr (size_ne_zero hget)) hsize
  · intro hclosed
    exact absurd (h.closed hclosed) (size_ne_zero hget)

/-- The new promise of a list, or an old one. -/
theorem get_concat {promises : List Promised} {last promised : Promised} {promise : Nat}
    (h : (promises ++ [last])[promise]? = some promised) :
    promises[promise]? = some promised ∨ (promise = promises.length ∧ promised = last) := by
  rcases Nat.lt_trichotomy promise promises.length with hlt | heq | hgt
  · rw [List.getElem?_append_left hlt] at h
    exact Or.inl h
  · rw [heq, List.getElem?_concat_length] at h
    exact Or.inr ⟨heq, (Option.some.inj h).symm⟩
  · rw [List.getElem?_eq_none (by rw [List.length_append]; exact hgt)] at h
    cases h

theorem get_concat_old {promises : List Promised} {promised : Promised} {promise : Nat}
    (h : promises[promise]? = some promised) (last : Promised) :
    (promises ++ [last])[promise]? = some promised := by
  rw [List.getElem?_append_left (List.getElem?_eq_some_iff.mp h).1]
  exact h

/-- The next request is new. -/
theorem Sound.next_free {c : MutationClient} (h : c.Sound) :
    c.pending.get (c.nextId + 1) = none := by
  cases hget : c.pending.get (c.nextId + 1) with
  | none => rfl
  | some promise => exact absurd (h.pending _ promise hget).1 (Nat.not_succ_le_self _)

theorem request_pending (c : MutationClient) :
    c.request.pending.get (c.nextId + 1) = some c.promises.length :=
  OrderedMap.get_set_self _ _ _

theorem Sound.request {c : MutationClient} (h : c.Sound) (hopen : c.closed = false) :
    c.request.Sound := by
  constructor
  · intro id promise hget
    have hset : (c.pending.set (c.nextId + 1) c.promises.length).get id = some promise := hget
    rw [OrderedMap.get_set] at hset
    by_cases hid : id = c.nextId + 1
    · rw [if_pos hid] at hset
      rw [← Option.some.inj hset, hid]
      exact ⟨Nat.le_refl _, List.getElem?_concat_length⟩
    · rw [if_neg hid] at hset
      rcases h.pending id promise hset with ⟨hle, hat⟩
      exact ⟨Nat.le_succ_of_le hle, get_concat_old hat _⟩
  · intro promise promised hget
    rcases get_concat hget with hold | ⟨hlast, heq⟩
    · rcases h.promises promise promised hold with honce | ⟨id, heq, hpending⟩
      · exact Or.inl honce
      · refine Or.inr ⟨id, heq, ?_⟩
        show (c.pending.set _ _).get id = some promise
        rw [OrderedMap.get_set, if_neg]
        · exact hpending
        · intro hid
          rw [hid, h.next_free] at hpending
          cases hpending
    · refine Or.inr ⟨c.nextId + 1, heq, ?_⟩
      rw [hlast]
      exact request_pending c
  · have hsize : (c.pending.set (c.nextId + 1) c.promises.length).size ≠ 0 :=
      size_ne_zero (request_pending c)
    refine iff_of_true ?_ hsize
    show (if (c.pending.set (c.nextId + 1) c.promises.length).size = 1 then true else c.refd) =
      true
    by_cases hone : (c.pending.set (c.nextId + 1) c.promises.length).size = 1
    · exact if_pos hone
    · rw [if_neg hone]
      apply h.refd.mpr
      intro hzero
      exact hone (OrderedMap.size_set_of_size_zero hzero _ _)
  · intro hclosed
    have hclosed' : c.closed = true := hclosed
    rw [hopen] at hclosed'
    cases hclosed'

theorem Sound.send {c : MutationClient} (h : c.Sound) (posted : Bool) :
    (c.send posted).Sound := by
  unfold MutationClient.send
  cases hclosed : c.closed with
  | true =>
      rw [if_pos rfl]
      constructor
      · intro id promise hget
        rcases h.pending id promise hget with ⟨hle, hat⟩
        exact ⟨hle, get_concat_old hat _⟩
      · intro promise promised hget
        rcases get_concat hget with hold | ⟨_, heq⟩
        · exact h.promises promise promised hold
        · refine Or.inl ⟨Settlement.refused, by rw [heq], ?_⟩
          intro request error himpossible
          cases himpossible
      · exact h.refd
      · exact fun _ => h.closed hclosed
  | false =>
      rw [if_neg Bool.false_ne_true]
      cases posted with
      | true => exact h.request hclosed
      | false =>
          apply (h.request hclosed).settled (request_pending c)
          intro request error himpossible
          cases himpossible

theorem Sound.handle {c : MutationClient} (h : c.Sound) (id : Nat)
    (error : Option ErrorRecord) : (c.handle id error).Sound := by
  unfold MutationClient.handle
  cases hget : c.pending.get id with
  | none => exact h
  | some promise =>
      apply h.settled hget
      intro request error' heq
      cases heq
      rfl

/-- Rejecting promises one after another touches each of them as often as it is named. -/
theorem foldl_call (promises : List Nat) (how : Settlement) (c : MutationClient) :
    promises.foldl (fun c promise => c.call promise how) c =
      { c with promises := promises.foldl (fun all promise =>
          all.modify promise (addSettlement how)) c.promises } := by
  induction promises generalizing c with
  | nil => rfl
  | cons promise rest ih =>
      rw [List.foldl_cons, ih]
      rfl

theorem get_foldl_modify {promises : List Nat} (hnodup : promises.Nodup) (how : Settlement)
    (all : List Promised) (promise : Nat) :
    (promises.foldl (fun all promise => all.modify promise (addSettlement how)) all)[promise]? =
      if promise ∈ promises then (all[promise]?).map (addSettlement how) else all[promise]? := by
  induction promises generalizing all with
  | nil => rfl
  | cons first rest ih =>
      have hparts := List.nodup_cons.mp hnodup
      rw [List.foldl_cons, ih hparts.2]
      by_cases hfirst : promise = first
      · rw [hfirst, if_neg hparts.1, if_pos List.mem_cons_self, List.getElem?_modify_eq]
        rfl
      · rw [List.getElem?_modify_ne _ _ (Ne.symm hfirst)]
        by_cases hrest : promise ∈ rest
        · rw [if_pos hrest, if_pos (List.mem_cons_of_mem first hrest)]
        · rw [if_neg hrest, if_neg]
          intro hmem
          rcases List.mem_cons.mp hmem with heq | hmem
          · exact hfirst heq
          · exact hrest hmem

theorem Sound.nodup_pending {c : MutationClient} (h : c.Sound) : c.pending.values.Nodup := by
  apply OrderedMap.nodup_values
  intro id id' promise hget hget'
  have hat := (h.pending id promise hget).2
  rw [(h.pending id' promise hget').2] at hat
  cases hat
  rfl

theorem Sound.close {c : MutationClient} (h : c.Sound) : c.close.Sound := by
  unfold MutationClient.close
  rw [foldl_call]
  constructor
  · intro id promise hget
    cases hget
  · intro promise promised hget
    dsimp only at hget
    rw [get_foldl_modify h.nodup_pending] at hget
    left
    by_cases hpending : promise ∈ c.pending.values
    · rw [if_pos hpending] at hget
      rcases OrderedMap.mem_values_iff.mp hpending with ⟨id, hid⟩
      rw [(h.pending id promise hid).2] at hget
      rw [← Option.some.inj hget]
      refine ⟨Settlement.linkClosed, rfl, ?_⟩
      intro request error himpossible
      cases himpossible
    · rw [if_neg hpending] at hget
      rcases h.promises promise promised hget with honce | ⟨id, _, hid⟩
      · exact honce
      · exact absurd (OrderedMap.mem_values_iff.mpr ⟨id, hid⟩) hpending
  · exact iff_of_false nofun (fun hne => hne rfl)
  · exact fun _ => rfl

theorem Sound.step {c : MutationClient} (h : c.Sound) (event : Event) : (c.step event).Sound := by
  cases event with
  | send posted => exact h.send posted
  | response id error => exact h.handle id error
  | close => exact h.close

theorem Sound.run (events : List Event) : (run events).Sound := by
  have hfold : forall c : MutationClient, c.Sound -> (events.foldl MutationClient.step c).Sound := by
    induction events with
    | nil => exact fun c h => h
    | cons event rest ih => exact fun c h => ih _ (h.step event)
  exact hfold MutationClient.new Sound.new

/-!
# What every promise comes to
-/

/-- Every promise is settled once, by the response to its own request, by its failed
post or by the end of the link, and the port is referenced while one is not. -/
structure Settles (c : MutationClient) : Prop where
  once : forall promised, promised ∈ c.promises -> promised.settlements.length ≤ 1
  pending : forall (promise : Nat) (promised : Promised),
    c.promises[promise]? = some promised ->
    (promised.settlements = [] <->
      exists id, promised.id = some id ∧ c.pending.get id = some promise)
  own : forall promised, promised ∈ c.promises -> forall request error,
    Settlement.response request error ∈ promised.settlements -> promised.id = some request
  answered : forall id promise error, c.pending.get id = some promise ->
    (c.handle id error).promises[promise]? =
      some { id := some id, settlements := [Settlement.response id error] }
  closed : c.closed = true -> forall promised, promised ∈ c.promises ->
    promised.settlements.length = 1
  refd : c.refd = true <-> exists promised, promised ∈ c.promises ∧ promised.settlements = []

theorem Sound.settles {c : MutationClient} (h : c.Sound) : c.Settles := by
  have hcases : forall promised, promised ∈ c.promises -> Once promised ∨
      exists id promise, promised = { id := some id, settlements := [] } ∧
        c.pending.get id = some promise := by
    intro promised hmem
    rcases List.mem_iff_getElem?.mp hmem with ⟨promise, hget⟩
    rcases h.promises promise promised hget with honce | ⟨id, heq, hid⟩
    · exact Or.inl honce
    · exact Or.inr ⟨id, promise, heq, hid⟩
  constructor
  · intro promised hmem
    rcases hcases promised hmem with ⟨how, heq, _⟩ | ⟨id, promise, heq, _⟩
    · rw [heq]
      exact Nat.le_refl 1
    · rw [heq]
      exact Nat.zero_le 1
  · intro promise promised hget
    constructor
    · intro hnil
      rcases h.promises promise promised hget with ⟨how, heq, _⟩ | ⟨id, heq, hid⟩
      · rw [hnil] at heq
        cases heq
      · exact ⟨id, by rw [heq], hid⟩
    · intro hpending
      rcases hpending with ⟨id, _, hid⟩
      have hat := (h.pending id promise hid).2
      rw [hget] at hat
      rw [Option.some.inj hat]
  · intro promised hmem request error hresponse
    rcases hcases promised hmem with ⟨how, heq, hown⟩ | ⟨id, promise, heq, _⟩
    · rw [heq] at hresponse
      exact hown request error (List.mem_singleton.mp hresponse).symm
    · rw [heq] at hresponse
      cases hresponse
  · intro id promise error hget
    unfold MutationClient.handle
    rw [hget]
    show (c.promises.modify promise (addSettlement (Settlement.response id error)))[promise]? = _
    rw [List.getElem?_modify_eq, (h.pending id promise hget).2]
    rfl
  · intro hclosed promised hmem
    rcases hcases promised hmem with ⟨how, heq, _⟩ | ⟨id, promise, _, hid⟩
    · rw [heq]
      rfl
    · exact absurd (h.closed hclosed) (size_ne_zero hid)
  · rw [h.refd]
    constructor
    · intro hsize
      by_contra hnone
      apply hsize
      apply OrderedMap.size_eq_zero_iff.mpr
      intro id
      cases hid : c.pending.get id with
      | none => rfl
      | some promise =>
          exfalso
          exact hnone ⟨_, List.mem_of_getElem? (h.pending id promise hid).2, rfl⟩
    · intro hex
      rcases hex with ⟨promised, hmem, hnil⟩
      rcases hcases promised hmem with ⟨how, heq, _⟩ | ⟨id, promise, _, hid⟩
      · rw [hnil] at heq
        cases heq
      · exact size_ne_zero hid

/-!
# Where a settlement comes from
-/

variable {c : MutationClient} {promised : Promised} {how : Settlement}

theorem call_settlement {promise : Nat} {new' : Settlement}
    (hmem : promised ∈ (c.call promise new').promises) (h : how ∈ promised.settlements) :
    how = new' ∨ exists old, old ∈ c.promises ∧ how ∈ old.settlements := by
  rcases List.mem_iff_getElem?.mp hmem with ⟨at', hget⟩
  have hmodify : (c.promises.modify promise (addSettlement new'))[at']? = some promised := hget
  by_cases hat : promise = at'
  · rw [hat, List.getElem?_modify_eq] at hmodify
    rcases Option.map_eq_some_iff.mp hmodify with ⟨old, hold, heq⟩
    rw [← heq] at h
    rcases List.mem_append.mp h with hin | hin
    · exact Or.inr ⟨old, List.mem_of_getElem? hold, hin⟩
    · exact Or.inl (List.mem_singleton.mp hin)
  · rw [List.getElem?_modify_ne _ _ hat] at hmodify
    exact Or.inr ⟨promised, List.mem_of_getElem? hmodify, h⟩

theorem handle_settlement {id : Nat} {error : Option ErrorRecord}
    (hmem : promised ∈ (c.handle id error).promises) (h : how ∈ promised.settlements) :
    how = Settlement.response id error ∨ exists old, old ∈ c.promises ∧ how ∈ old.settlements := by
  unfold handle at hmem
  cases hget : c.pending.get id with
  | none =>
      rw [hget] at hmem
      exact Or.inr ⟨promised, hmem, h⟩
  | some promise =>
      rw [hget] at hmem
      exact call_settlement hmem h

theorem request_settlement (hmem : promised ∈ c.request.promises)
    (h : how ∈ promised.settlements) :
    exists old, old ∈ c.promises ∧ how ∈ old.settlements := by
  rcases List.mem_append.mp hmem with hold | hnew
  · exact ⟨promised, hold, h⟩
  · rw [List.mem_singleton.mp hnew] at h
    cases h

/-- Nothing but a response settles with one. -/
theorem send_response {posted : Bool} {id : Nat} {error : Option ErrorRecord}
    (hmem : promised ∈ (c.send posted).promises)
    (h : Settlement.response id error ∈ promised.settlements) :
    exists old, old ∈ c.promises ∧ Settlement.response id error ∈ old.settlements := by
  unfold send at hmem
  cases hclosed : c.closed with
  | true =>
      rw [if_pos hclosed] at hmem
      rcases List.mem_append.mp hmem with hold | hnew
      · exact ⟨promised, hold, h⟩
      · rw [List.mem_singleton.mp hnew] at h
        cases List.mem_singleton.mp h
  | false =>
      rw [hclosed, if_neg Bool.false_ne_true] at hmem
      cases posted with
      | true => exact request_settlement hmem h
      | false =>
          rcases call_settlement hmem h with himpossible | ⟨old, hold, hin⟩
          · cases himpossible
          · exact request_settlement hold hin

theorem close_response {id : Nat} {error : Option ErrorRecord}
    (hmem : promised ∈ c.close.promises)
    (h : Settlement.response id error ∈ promised.settlements) :
    exists old, old ∈ c.promises ∧ Settlement.response id error ∈ old.settlements := by
  have hfold : forall (promises : List Nat) (c : MutationClient) (promised : Promised),
      promised ∈ (promises.foldl (fun c promise => c.call promise Settlement.linkClosed)
        c).promises -> Settlement.response id error ∈ promised.settlements ->
      exists old, old ∈ c.promises ∧ Settlement.response id error ∈ old.settlements := by
    intro promises
    induction promises with
    | nil => exact fun c promised hmem h => ⟨promised, hmem, h⟩
    | cons promise rest ih =>
        intro c promised hmem h
        rcases ih _ promised hmem h with ⟨old, hold, hin⟩
        rcases call_settlement hold hin with himpossible | hex
        · cases himpossible
        · exact hex
  exact hfold c.pending.values
    { c with closed := true, pending := OrderedMap.empty, refd := false } promised hmem h

theorem send_nextId (c : MutationClient) (posted : Bool) : c.nextId ≤ (c.send posted).nextId := by
  unfold send
  cases c.closed with
  | true => exact Nat.le_refl _
  | false =>
      rw [if_neg Bool.false_ne_true]
      cases posted with
      | true => exact Nat.le_succ _
      | false => exact Nat.le_succ _

theorem handle_nextId (c : MutationClient) (id : Nat) (error : Option ErrorRecord) :
    (c.handle id error).nextId = c.nextId := by
  unfold handle
  cases c.pending.get id with
  | none => rfl
  | some promise => rfl

theorem close_nextId (c : MutationClient) : c.close.nextId = c.nextId := by
  unfold close
  rw [foldl_call]

end MutationClient

/-!
# Both ends
-/

end SharedMemoryFs
