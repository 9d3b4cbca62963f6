import SharedMemoryFs.Places.Serializable
import SharedMemoryFs.Workers.Network

/-!
# A worker reads its own writes

The projection of a worker is always what the main kernel held after some number of
commits, and that number covers every mutation whose promise has fulfilled: the
update of a mutation is posted before its response, and a port keeps the order.
-/

namespace SharedMemoryFs

open Foundation

/-!
# The main kernel only goes forward
-/

namespace SabPlace

/-- Commits and accepted tasks stay. -/
structure Extends (s s' : SabPlace) : Prop where
  log : s.log <+: s'.log
  tasks : forall (id : Nat) (task : MutationTask), s.tasks[id]? = some task ->
    exists task', s'.tasks[id]? = some task' ∧ task'.op = task.op

theorem Extends.refl (s : SabPlace) : Extends s s :=
  { log := List.prefix_refl _
    tasks := fun _ task h => ⟨task, h, rfl⟩ }

theorem extends_set {s s' : SabPlace} (hlog : s.log <+: s'.log) {id : Nat} {task : MutationTask}
    (hget : s.tasks[id]? = some task) {status : Status}
    (htasks : s'.tasks = s.tasks.set id { task with status := status }) : Extends s s' := by
  constructor
  · exact hlog
  · intro other u hu
    rw [htasks]
    by_cases hother : other = id
    · rw [hother, hget] at hu
      rw [hother]
      refine ⟨_, get_set_self hget _, ?_⟩
      rw [← Option.some.inj hu]
    · exact ⟨u, by rw [get_set_ne hother]; exact hu, rfl⟩

theorem extends_request (s : SabPlace) (op : Mutation) : Extends s (s.request op) := by
  constructor
  · exact List.prefix_refl _
  · intro id task h
    refine ⟨task, ?_, rfl⟩
    show (s.tasks ++ [_])[id]? = some task
    rw [List.getElem?_append_left (List.getElem?_eq_some_iff.mp h).1]
    exact h

theorem extends_start {place : Place} {s : SabPlace} {id : Nat} {task : MutationTask}
    (hget : s.tasks[id]? = some task) (now : Nat) : Extends s (s.start place id task now) := by
  unfold start
  cases SabStore.start place s.files s.creating task.queue.keys.isSome now task.op with
  | error refusal => exact extends_set (List.prefix_refl _) hget rfl
  | ok plan =>
      cases plan with
      | now changes => exact extends_set (List.prefix_append _ _) hget rfl
      | move moves => exact extends_set (List.prefix_refl _) hget rfl
      | publish target input removed =>
          cases input with
          | ok input => exact extends_set (List.prefix_refl _) hget rfl
          | error refusal => exact extends_set (List.prefix_refl _) hget rfl

theorem Step.extends {place : Place} {s s' : SabPlace} (h : Step place s s') : Extends s s' := by
  cases h with
  | request op _ => exact extends_request s op
  | start id task now hget _ _ => exact extends_start hget now
  | copy id task copies move rest now file hget _ _ =>
      exact extends_set (List.prefix_refl _) hget rfl
  | commit id task target input removed env changes hget _ _ =>
      exact extends_set (List.prefix_append _ _) hget rfl
  | commitTree id task copies now hget _ => exact extends_set (List.prefix_append _ _) hget rfl
  | fail id task target input removed now refusal hget _ =>
      exact extends_set (List.prefix_refl _) hget rfl
  | failTree id task copies rest now refusal hget _ =>
      exact extends_set (List.prefix_refl _) hget rfl
  | settle id task creating result hget _ => exact extends_set (List.prefix_refl _) hget rfl
  | release id task result hget _ =>
      exact { log := List.prefix_refl _, tasks := fun _ u hu => ⟨u, hu, rfl⟩ }

end SabPlace

open SabPlace

/-!
# Canonical requests
-/

theorem canonicalKey_idem {key canonical : Key}
    (h : PlaceFiles.canonicalKey key = some canonical) :
    PlaceFiles.canonicalKey canonical = some canonical := by
  have hrooted : forall {k : Key}, k.head? = some slash -> ¬ (sep ∈ k ∨ '\\' ∈ k) ->
      (PlaceFiles.names k).all PlaceFiles.validName = true ->
      PlaceFiles.canonicalKey k = some k := by
    intro k hhead hchars hvalid
    unfold PlaceFiles.canonicalKey
    rw [if_neg hchars]
    dsimp only
    rw [if_pos hhead, if_pos hvalid]
  unfold PlaceFiles.canonicalKey at h
  by_cases hchars : sep ∈ key ∨ '\\' ∈ key
  · rw [if_pos hchars] at h
    cases h
  · rw [if_neg hchars] at h
    dsimp only at h
    by_cases hhead : key.head? = some slash
    · rw [if_pos hhead] at h
      by_cases hvalid : (PlaceFiles.names key).all PlaceFiles.validName = true
      · rw [if_pos hvalid] at h
        rw [← Option.some.inj h]
        exact hrooted hhead hchars hvalid
      · rw [if_neg hvalid] at h
        cases h
    · rw [if_neg hhead] at h
      by_cases hvalid : (PlaceFiles.names (slash :: key)).all PlaceFiles.validName = true
      · rw [if_pos hvalid] at h
        rw [← Option.some.inj h]
        refine hrooted rfl ?_ hvalid
        intro hmem
        apply hchars
        rcases hmem with hsep | hback
        · rcases List.mem_cons.mp hsep with heq | hin
          · cases heq
          · exact Or.inl hin
        · rcases List.mem_cons.mp hback with heq | hin
          · cases heq
          · exact Or.inr hin
      · rw [if_neg hvalid] at h
        cases h

/-- The keys of an accepted request are canonical. -/
theorem Mutation.canonical_canonical {op op' : Mutation} (h : op.canonical = some op') :
    op'.Canonical := by
  have hone : forall {key canonical : Key} {keys : List Key},
      PlaceFiles.canonicalKey key = some canonical -> keys = [canonical] ->
      forall k, k ∈ keys -> PlaceFiles.canonicalKey k = some k := by
    intro key canonical keys hkey heq k hk
    rw [heq] at hk
    rw [List.mem_singleton.mp hk]
    exact canonicalKey_idem hkey
  cases op with
  | rename source target directory =>
      rcases Option.bind_eq_some_iff.mp h with ⟨source', hsource, hrest⟩
      rcases Option.map_eq_some_iff.mp hrest with ⟨target', htarget, heq⟩
      rw [← heq]
      intro key hkey
      rcases List.mem_cons.mp hkey with hfirst | hsecond
      · rw [hfirst]
        exact canonicalKey_idem hsource
      · rw [List.mem_singleton.mp hsecond]
        exact canonicalKey_idem htarget
  | _ =>
      rcases Option.map_eq_some_iff.mp h with ⟨canonical, hkey, heq⟩
      rw [← heq]
      exact hone hkey rfl

/-!
# What the messages on the way lead to
-/

def Message.commits : Message -> Nat
  | Message.update _ commits => commits
  | Message.mutated _ _ commits => commits

/-- The projection after a message. -/
def Message.applied (files : Files) : Message -> Files
  | Message.update changes _ => SabStore.flush files changes
  | Message.mutated _ _ _ => files

section Run

variable (place : Place) (initial : Files)

/-- The files are what the first commits of a log leave. -/
structure StateAt (log : List Committed) (version : Nat) (files : Files) : Prop where
  bounded : version ≤ log.length
  replays : replay place initial (log.take version) = Except.ok files

namespace RemoteWorker

/-- A commit of the main kernel is the mutation of one request of the worker. -/
def Carries (main : SabPlace) (worker : RemoteWorker) (id i : Nat) : Prop :=
  exists op task c, (id, op) ∈ worker.sent ∧ op.canonical = some c.op ∧
    (id, task) ∈ worker.served ∧ main.log[i]? = some c ∧ c.task = task

/-- The mutation of a request is among the first commits. -/
def Answered (main : SabPlace) (worker : RemoteWorker) (id version : Nat) : Prop :=
  exists i, i < version ∧ worker.Carries main id i

/-- A message leads to a state of the main kernel, one that holds the mutation it
reports. -/
structure Fits (main : SabPlace) (worker : RemoteWorker) (files : Files) (message : Message) :
    Prop where
  state : StateAt place initial main.log message.commits (message.applied files)
  answered : forall id commits, message = Message.mutated id none commits ->
    worker.Answered main id commits

/-- The messages on the way, read in their order. -/
def Delivers (main : SabPlace) (worker : RemoteWorker) : Nat -> Files -> List Message -> Prop
  | _, _, [] => True
  | version, files, message :: rest =>
      version ≤ message.commits ∧ Fits place initial main worker files message ∧
        Delivers main worker message.commits (message.applied files) rest

/-- The projection once everything on the way has arrived. -/
def drained (worker : RemoteWorker) : Files := worker.inbox.foldl Message.applied worker.files

structure Sound (main : SabPlace) (worker : RemoteWorker) : Prop where
  state : StateAt place initial main.log worker.version worker.files
  delivers : worker.attached = true ->
    Delivers place initial main worker worker.version worker.files worker.inbox
  fulfilled : forall promised, promised ∈ worker.client.promises -> forall id,
    Settlement.response id none ∈ promised.settlements -> worker.Answered main id worker.version
  client : worker.client.Sound
  ascending : worker.sent.Pairwise (fun a b => a.1 < b.1)
  fresh : forall request, request ∈ worker.sent -> request.1 ≤ worker.client.nextId
  queued : exists before, worker.sent = before ++ worker.requests ∧
    forall entry, entry ∈ worker.served -> exists op, (entry.1, op) ∈ before
  ordered : worker.served.Pairwise (fun a b => a.1 < b.1 ∧ a.2 < b.2)
  accepted : forall entry, entry ∈ worker.served -> exists op task, (entry.1, op) ∈ worker.sent ∧
    main.tasks[entry.2]? = some task ∧ op.canonical = some task.op
  owed : forall entry, entry ∈ worker.owed -> entry ∈ worker.served

/-- A linked worker that hears from its link ends up with what the main kernel holds. -/
def Current (main : SabPlace) (worker : RemoteWorker) : Prop :=
  worker.linked = true -> worker.attached = true -> worker.drained = main.files

end RemoteWorker

/-!
# Moving an invariant to a later state
-/

variable {place : Place} {initial : Files} {main main' : SabPlace} {worker worker' : RemoteWorker}

theorem StateAt.extend {log log' : List Committed} {version : Nat} {files : Files}
    (h : StateAt place initial log version files) (hlog : log <+: log') :
    StateAt place initial log' version files := by
  rcases hlog with ⟨rest, rfl⟩
  constructor
  · rw [List.length_append]
    exact Nat.le_add_right_of_le h.bounded
  · rw [List.take_append_of_le_length h.bounded]
    exact h.replays

namespace RemoteWorker

theorem Carries.extend {id i : Nat} (h : worker.Carries main id i) (hlog : main.log <+: main'.log)
    (hsent : worker.sent ⊆ worker'.sent) (hserved : worker.served ⊆ worker'.served) :
    worker'.Carries main' id i := by
  rcases h with ⟨op, task, c, hop, hcanonical, htask, hget, hc⟩
  refine ⟨op, task, c, hsent hop, hcanonical, hserved htask, ?_, hc⟩
  rcases hlog with ⟨rest, heq⟩
  rw [← heq, List.getElem?_append_left (List.getElem?_eq_some_iff.mp hget).1]
  exact hget

theorem Answered.extend {id version version' : Nat} (h : worker.Answered main id version)
    (hversion : version ≤ version') (hlog : main.log <+: main'.log)
    (hsent : worker.sent ⊆ worker'.sent) (hserved : worker.served ⊆ worker'.served) :
    worker'.Answered main' id version' := by
  rcases h with ⟨i, hi, hcarries⟩
  exact ⟨i, Nat.lt_of_lt_of_le hi hversion, hcarries.extend hlog hsent hserved⟩

theorem Fits.extend {files : Files} {message : Message}
    (h : Fits place initial main worker files message) (hlog : main.log <+: main'.log)
    (hsent : worker.sent ⊆ worker'.sent) (hserved : worker.served ⊆ worker'.served) :
    Fits place initial main' worker' files message := by
  constructor
  · exact h.state.extend hlog
  · intro id commits heq
    exact (h.answered id commits heq).extend (Nat.le_refl _) hlog hsent hserved

theorem Delivers.extend {messages : List Message} {version : Nat} {files : Files}
    (h : Delivers place initial main worker version files messages)
    (hlog : main.log <+: main'.log) (hsent : worker.sent ⊆ worker'.sent)
    (hserved : worker.served ⊆ worker'.served) :
    Delivers place initial main' worker' version files messages := by
  induction messages generalizing version files with
  | nil => exact trivial
  | cons message rest ih =>
      rcases h with ⟨hle, hfits, hrest⟩
      exact ⟨hle, hfits.extend hlog hsent hserved, ih hrest⟩

/-- A message posted now goes behind what is on the way. -/
theorem Delivers.append {messages : List Message} {version : Nat} {files : Files}
    (h : Delivers place initial main worker version files messages)
    (hversion : version ≤ main.log.length) {message : Message}
    (hcommits : message.commits = main.log.length)
    (hfits : Fits place initial main worker (messages.foldl Message.applied files) message) :
    Delivers place initial main worker version files (messages ++ [message]) := by
  induction messages generalizing version files with
  | nil =>
      refine ⟨?_, hfits, trivial⟩
      rw [hcommits]
      exact hversion
  | cons first rest ih =>
      rcases h with ⟨hle, hfirst, hrest⟩
      exact ⟨hle, hfirst, ih hrest hfirst.state.bounded hfits⟩

/-- The main kernel goes on. -/
theorem Sound.extend (h : Sound place initial main worker) (hext : main.Extends main') :
    Sound place initial main' worker := by
  have hsame : worker.sent ⊆ worker.sent := fun _ hmem => hmem
  have hserved : worker.served ⊆ worker.served := fun _ hmem => hmem
  constructor
  · exact h.state.extend hext.log
  · exact fun hattached => (h.delivers hattached).extend hext.log hsame hserved
  · intro promised hmem id hresponse
    exact (h.fulfilled promised hmem id hresponse).extend (Nat.le_refl _) hext.log hsame hserved
  · exact h.client
  · exact h.ascending
  · exact h.fresh
  · exact h.queued
  · exact h.ordered
  · intro entry hentry
    rcases h.accepted entry hentry with ⟨op, task, hop, hget, hcanonical⟩
    rcases hext.tasks entry.2 task hget with ⟨task', hget', heq⟩
    exact ⟨op, task', hop, hget', by rw [heq]; exact hcanonical⟩
  · exact h.owed

/-!
# Steps of one worker
-/

theorem Sound.linkedTo (hoverlap : Overlap place initial main) :
    Sound place initial main (linkedTo main) := by
  constructor
  · constructor
    · exact Nat.le_refl _
    · show replay place initial (main.log.take main.log.length) = _
      rw [List.take_length]
      exact hoverlap.replays
  · exact fun _ => trivial
  · exact fun promised hmem => by cases hmem
  · exact MutationClient.Sound.new
  · exact List.Pairwise.nil
  · exact fun request hmem => by cases hmem
  · exact ⟨[], rfl, fun entry hmem => by cases hmem⟩
  · exact List.Pairwise.nil
  · exact fun entry hmem => by cases hmem
  · exact fun entry hmem => by cases hmem

/-- A message posted now. -/
theorem Sound.post (h : Sound place initial main worker) {message : Message}
    (hcommits : message.commits = main.log.length)
    (hfits : worker.linked = true -> worker.attached = true ->
      Fits place initial main worker worker.drained message) :
    Sound place initial main (worker.post message) := by
  unfold RemoteWorker.post
  cases hlinked : worker.linked with
  | false =>
      rw [if_neg Bool.false_ne_true]
      exact h
  | true =>
      rw [if_pos rfl]
      constructor
      · exact h.state
      · intro hattached
        have happend := (h.delivers hattached).append h.state.bounded hcommits
          (hfits hlinked hattached)
        exact happend.extend (List.prefix_refl _) (fun _ hmem => hmem) (fun _ hmem => hmem)
      · exact h.fulfilled
      · exact h.client
      · exact h.ascending
      · exact h.fresh
      · exact h.queued
      · exact h.ordered
      · exact h.accepted
      · exact h.owed

theorem drained_post (worker : RemoteWorker) (message : Message) (hlinked : worker.linked = true) :
    (worker.post message).drained = message.applied worker.drained := by
  unfold RemoteWorker.post
  rw [if_pos hlinked]
  show (worker.inbox ++ [message]).foldl Message.applied worker.files = _
  rw [List.foldl_append]
  rfl

/-- Requests and promises change, the projection does not. -/
theorem Sound.request (h : Sound place initial main worker) (op : Mutation)
    (hopen : worker.client.closed = false) :
    Sound place initial main (worker.request op) := by
  have hsent : worker.sent ⊆ (worker.request op).sent :=
    fun _ hmem => List.mem_append_left _ hmem
  have hserved : worker.served ⊆ (worker.request op).served := fun _ hmem => hmem
  constructor
  · exact h.state
  · exact fun hattached => (h.delivers hattached).extend (List.prefix_refl _) hsent hserved
  · intro promised hmem id hresponse
    rcases MutationClient.request_settlement hmem hresponse with ⟨old, hold, hin⟩
    exact (h.fulfilled old hold id hin).extend (Nat.le_refl _) (List.prefix_refl _) hsent hserved
  · exact h.client.request hopen
  · apply List.pairwise_append.mpr
    refine ⟨h.ascending, List.pairwise_singleton _ _, ?_⟩
    intro a ha b hb
    rw [List.mem_singleton.mp hb]
    exact Nat.lt_succ_of_le (h.fresh a ha)
  · intro request hrequest
    rcases List.mem_append.mp hrequest with hold | hnew
    · exact Nat.le_succ_of_le (h.fresh request hold)
    · rw [List.mem_singleton.mp hnew]
      exact Nat.le_refl _
  · rcases h.queued with ⟨before, hbefore, hentries⟩
    refine ⟨before, ?_, hentries⟩
    show worker.sent ++ _ = before ++ (worker.requests ++ _)
    rw [hbefore, List.append_assoc]
  · exact h.ordered
  · intro entry hentry
    rcases h.accepted entry hentry with ⟨op', task, hop, hrest⟩
    exact ⟨op', task, hsent hop, hrest⟩
  · exact h.owed

/-- The client changes; what it gains is a fulfilled promise of a mutation the
projection holds, or none. -/
theorem Sound.client_step (h : Sound place initial main worker) {client : MutationClient}
    (hclient : client.Sound) (hnext : worker.client.nextId ≤ client.nextId)
    (hfulfilled : forall promised, promised ∈ client.promises -> forall id,
      Settlement.response id none ∈ promised.settlements ->
      worker.Answered main id worker.version) :
    Sound place initial main { worker with client := client } := by
  have hsame : worker.sent ⊆ worker.sent := fun _ hmem => hmem
  have hserved : worker.served ⊆ worker.served := fun _ hmem => hmem
  constructor
  · exact h.state
  · exact fun hattached => (h.delivers hattached).extend (List.prefix_refl _) hsame hserved
  · exact hfulfilled
  · exact hclient
  · exact h.ascending
  · exact fun request hrequest => Nat.le_trans (h.fresh request hrequest) hnext
  · exact h.queued
  · exact h.ordered
  · exact h.accepted
  · exact h.owed

theorem Sound.mutate (h : Sound place initial main worker) (op : Mutation) (posted : Bool) :
    Sound place initial main (worker.mutate op posted) := by
  unfold RemoteWorker.mutate
  by_cases hopen : (!worker.client.closed) = true ∧ posted = true
  · rw [if_pos hopen]
    exact h.request op ((Bool.not_eq_true' _).mp hopen.1)
  · rw [if_neg hopen]
    apply h.client_step (h.client.send posted) (MutationClient.send_nextId _ posted)
    intro promised hmem id hresponse
    rcases MutationClient.send_response hmem hresponse with ⟨old, hold, hin⟩
    exact h.fulfilled old hold id hin

/-- The first request becomes the next task. -/
theorem Sound.accept (h : Sound place initial main worker) {id : Nat} {op op' : Mutation}
    {rest : List (Nat × Mutation)} (hrequests : worker.requests = (id, op) :: rest)
    (hcanonical : op.canonical = some op') :
    Sound place initial (main.request op') (worker.accepted id main.tasks.length rest) := by
  have hext : main.Extends (main.request op') := extends_request main op'
  have hserved : worker.served ⊆ (worker.accepted id main.tasks.length rest).served :=
    fun _ hmem => List.mem_append_left _ hmem
  have hsent : worker.sent ⊆ worker.sent := fun _ hmem => hmem
  rcases h.queued with ⟨before, hbefore, hentries⟩
  rw [hrequests] at hbefore
  have hop : (id, op) ∈ worker.sent := by
    rw [hbefore]
    exact List.mem_append_right _ List.mem_cons_self
  have hlast : (main.request op').tasks[main.tasks.length]? =
      some { op := op', queue := _, status := Status.queued } := List.getElem?_concat_length
  constructor
  · exact h.state.extend hext.log
  · exact fun hattached => (h.delivers hattached).extend hext.log hsent hserved
  · intro promised hmem id' hresponse
    exact (h.fulfilled promised hmem id' hresponse).extend (Nat.le_refl _) hext.log hsent hserved
  · exact h.client
  · exact h.ascending
  · exact h.fresh
  · refine ⟨before ++ [(id, op)], ?_, ?_⟩
    · rw [List.append_assoc]
      exact hbefore
    · intro entry hentry
      rcases List.mem_append.mp hentry with hold | hnew
      · rcases hentries entry hold with ⟨earlier, hin⟩
        exact ⟨earlier, List.mem_append_left _ hin⟩
      · rw [List.mem_singleton.mp hnew]
        exact ⟨op, List.mem_append_right _ List.mem_cons_self⟩
  · apply List.pairwise_append.mpr
    refine ⟨h.ordered, List.pairwise_singleton _ _, ?_⟩
    intro entry hentry last hlastEntry
    rw [List.mem_singleton.mp hlastEntry]
    constructor
    · rcases hentries entry hentry with ⟨earlier, hin⟩
      have hascending := h.ascending
      rw [hbefore] at hascending
      exact (List.pairwise_append.mp hascending).2.2 _ hin _ List.mem_cons_self
    · rcases h.accepted entry hentry with ⟨_, task, _, hget, _⟩
      exact (List.getElem?_eq_some_iff.mp hget).1
  · intro entry hentry
    rcases List.mem_append.mp hentry with hold | hnew
    · rcases h.accepted entry hold with ⟨earlier, task, hin, hget, heq⟩
      rcases hext.tasks entry.2 task hget with ⟨task', hget', hsame⟩
      exact ⟨earlier, task', hin, hget', by rw [hsame]; exact heq⟩
    · rw [List.mem_singleton.mp hnew]
      exact ⟨op, _, hop, hlast, hcanonical⟩
  · intro entry hentry
    rcases List.mem_append.mp hentry with hold | hnew
    · exact List.mem_append_left _ (h.owed entry hold)
    · exact List.mem_append_right _ hnew

/-- The first request is dropped. -/
theorem Sound.dropRequest (h : Sound place initial main worker) {id : Nat} {op : Mutation}
    {rest : List (Nat × Mutation)} (hrequests : worker.requests = (id, op) :: rest) :
    Sound place initial main { worker with requests := rest } := by
  rcases h.queued with ⟨before, hbefore, hentries⟩
  rw [hrequests] at hbefore
  exact
    { h with
      delivers := fun hattached => (h.delivers hattached).extend (List.prefix_refl _)
        (fun _ hmem => hmem) (fun _ hmem => hmem)
      queued := by
        refine ⟨before ++ [(id, op)], ?_, ?_⟩
        · rw [List.append_assoc]
          exact hbefore
        · intro entry hentry
          rcases hentries entry hentry with ⟨earlier, hin⟩
          exact ⟨earlier, List.mem_append_left _ hin⟩ }

/-- A response is no longer owed. -/
theorem Sound.discharge (h : Sound place initial main worker) (entry : Nat × Nat) :
    Sound place initial main { worker with owed := worker.owed.erase entry } :=
  { h with
    delivers := fun hattached => (h.delivers hattached).extend (List.prefix_refl _)
      (fun _ hmem => hmem) (fun _ hmem => hmem)
    owed := fun other hother => h.owed other (List.mem_of_mem_erase hother) }

theorem Sound.unlink (h : Sound place initial main worker) :
    Sound place initial main worker.unlink :=
  { h with
    delivers := fun hattached => (h.delivers hattached).extend (List.prefix_refl _)
      (fun _ hmem => hmem) (fun _ hmem => hmem)
    queued := by
      refine ⟨worker.sent, (List.append_nil _).symm, ?_⟩
      intro entry hentry
      rcases h.accepted entry hentry with ⟨op, _, hop, _⟩
      exact ⟨op, hop⟩
    owed := fun entry hentry => by cases hentry }

theorem Sound.detach (h : Sound place initial main worker) :
    Sound place initial main worker.detach := by
  have hclosed : Sound place initial main { worker with client := worker.client.close } := by
    apply h.client_step h.client.close (Nat.le_of_eq (MutationClient.close_nextId _).symm)
    intro promised hmem id hresponse
    rcases MutationClient.close_response hmem hresponse with ⟨old, hold, hin⟩
    exact h.fulfilled old hold id hin
  exact { hclosed with delivers := fun hattached => by cases hattached }

/-- The first message on the way arrives. -/
theorem Sound.receive (h : Sound place initial main worker)
    (hattached : worker.attached = true) {message : Message} {rest : List Message}
    (hinbox : worker.inbox = message :: rest) :
    Sound place initial main (RemoteWorker.receive { worker with inbox := rest } message) := by
  have hdelivers := h.delivers hattached
  rw [hinbox] at hdelivers
  rcases hdelivers with ⟨hle, hfits, hrest⟩
  have hsame : worker.sent ⊆ worker.sent := fun _ hmem => hmem
  have hserved : worker.served ⊆ worker.served := fun _ hmem => hmem
  have hlater : forall {id : Nat}, worker.Answered main id worker.version ->
      worker.Answered main id message.commits :=
    fun hanswered => hanswered.extend hle (List.prefix_refl _) hsame hserved
  cases message with
  | update changes commits =>
      exact
        { h with
          state := hfits.state
          delivers := fun _ => hrest.extend (List.prefix_refl _) hsame hserved
          fulfilled := fun promised hmem id hresponse =>
            hlater (h.fulfilled promised hmem id hresponse) }
  | mutated id error commits =>
      exact
        { h with
          state := hfits.state
          delivers := fun _ => hrest.extend (List.prefix_refl _) hsame hserved
          fulfilled := by
            intro promised hmem id' hresponse
            rcases MutationClient.handle_settlement hmem hresponse with heq | ⟨old, hold, hin⟩
            · cases heq
              exact hfits.answered id commits rfl
            · exact hlater (h.fulfilled old hold id' hin)
          client := h.client.handle id error
          fresh := fun request hrequest => by
            show request.1 ≤ (worker.client.handle id error).nextId
            rw [MutationClient.handle_nextId]
            exact h.fresh request hrequest }

end RemoteWorker

/-!
# Runs of the network
-/

open RemoteWorker

namespace Network

variable (place initial)

structure Sound (n : Network) : Prop where
  overlap : Overlap place initial n.main
  workers : forall worker, worker ∈ n.workers ->
    RemoteWorker.Sound place initial n.main worker
  current : forall worker, worker ∈ n.workers -> worker.Current n.main

variable {place initial} {n : Network}

theorem Sound.new (hinitial : MapStore.Kept initial) :
    Sound place initial (Network.initial initial) :=
  { overlap := Overlap.initial_overlap hinitial
    workers := fun worker hmem => by cases hmem
    current := fun worker hmem => by cases hmem }

theorem Sound.setWorker (h : Sound place initial n) {w : Nat} {worker : RemoteWorker}
    (hworker : RemoteWorker.Sound place initial n.main worker)
    (hcurrent : worker.Current n.main) : Sound place initial (n.setWorker w worker) := by
  constructor
  · exact h.overlap
  · intro other hmem
    rcases List.mem_or_eq_of_mem_set hmem with hold | heq
    · exact h.workers other hold
    · rw [heq]
      exact hworker
  · intro other hmem
    rcases List.mem_or_eq_of_mem_set hmem with hold | heq
    · exact h.current other hold
    · rw [heq]
      exact hcurrent

/-- The main kernel goes on and posts nothing. -/
theorem Sound.advance (h : Sound place initial n) {main : SabPlace}
    (hoverlap : Overlap place initial main) (hext : n.main.Extends main)
    (hfiles : main.files = n.main.files) : Sound place initial { n with main := main } := by
  constructor
  · exact hoverlap
  · exact fun worker hmem => (h.workers worker hmem).extend hext
  · intro worker hmem hlinked hattached
    rw [h.current worker hmem hlinked hattached]
    exact hfiles.symm

/-- The main kernel goes on to the state an update leads to, and posts it. -/
theorem Sound.broadcast (h : Sound place initial n) {main : SabPlace} {changes : List Change}
    (hoverlap : Overlap place initial main) (hext : n.main.Extends main)
    (hfiles : main.files = SabStore.flush n.main.files changes) :
    Sound place initial
      (Network.broadcast { n with main := main } (Message.update changes main.log.length)) := by
  have happlied : forall worker, worker ∈ n.workers -> worker.linked = true ->
      worker.attached = true ->
      (Message.update changes main.log.length).applied worker.drained = main.files := by
    intro worker hmem hlinked hattached
    rw [h.current worker hmem hlinked hattached]
    exact hfiles.symm
  constructor
  · exact hoverlap
  · intro posted hmem
    rcases List.mem_map.mp hmem with ⟨worker, hworker, heq⟩
    rw [← heq]
    apply ((h.workers worker hworker).extend hext).post rfl
    intro hlinked hattached
    constructor
    · constructor
      · exact Nat.le_refl _
      · rw [happlied worker hworker hlinked hattached]
        show replay place initial (main.log.take main.log.length) = _
        rw [List.take_length]
        exact hoverlap.replays
    · intro id commits himpossible
      cases himpossible
  · intro posted hmem
    rcases List.mem_map.mp hmem with ⟨worker, hworker, heq⟩
    rw [← heq]
    intro hlinked hattached
    cases hbefore : worker.linked with
    | false =>
        unfold RemoteWorker.post at hlinked
        rw [hbefore, if_neg Bool.false_ne_true] at hlinked
        rw [hbefore] at hlinked
        cases hlinked
    | true =>
        rw [drained_post worker _ hbefore]
        apply happlied worker hworker hbefore
        unfold RemoteWorker.post at hattached
        rw [hbefore, if_pos rfl] at hattached
        exact hattached

/-- A response is posted to one worker. -/
theorem Sound.respond (h : Sound place initial n) {w : Nat} {worker : RemoteWorker}
    (hworker : RemoteWorker.Sound place initial n.main worker)
    (hcurrent : worker.Current n.main) (id : Nat) (error : Option ErrorRecord)
    (hanswered : error = none -> worker.Answered n.main id n.main.log.length) :
    Sound place initial
      (n.setWorker w (worker.post (Message.mutated id error n.main.log.length))) := by
  apply h.setWorker
  · apply hworker.post rfl
    intro hlinked hattached
    constructor
    · constructor
      · exact Nat.le_refl _
      · show replay place initial (n.main.log.take n.main.log.length) = Except.ok worker.drained
        rw [List.take_length, hcurrent hlinked hattached]
        exact h.overlap.replays
    · intro id' commits heq
      cases heq
      exact hanswered rfl
  · intro hlinked hattached
    cases hbefore : worker.linked with
    | false =>
        unfold RemoteWorker.post at hlinked
        rw [hbefore, if_neg Bool.false_ne_true] at hlinked
        rw [hbefore] at hlinked
        cases hlinked
    | true =>
        rw [drained_post worker _ hbefore]
        apply hcurrent hbefore
        unfold RemoteWorker.post at hattached
        rw [hbefore, if_pos rfl] at hattached
        exact hattached

theorem Sound.step (h : Sound place initial n) {n' : Network} (hstep : Step place n n') :
    Sound place initial n' := by
  cases hstep with
  | link =>
      constructor
      · exact h.overlap
      · intro worker hmem
        rcases List.mem_append.mp hmem with hold | hnew
        · exact h.workers worker hold
        · rw [List.mem_singleton.mp hnew]
          exact RemoteWorker.Sound.linkedTo h.overlap
      · intro worker hmem
        rcases List.mem_append.mp hmem with hold | hnew
        · exact h.current worker hold
        · rw [List.mem_singleton.mp hnew]
          exact fun _ _ => rfl
  | mutate op hop => exact h.advance (h.overlap.request hop) (extends_request n.main op) rfl
  | advance main hstep _ hlog =>
      have hoverlap := h.overlap.step hstep
      apply h.advance hoverlap hstep.extends
      have hreplays := hoverlap.replays
      rw [hlog, h.overlap.replays] at hreplays
      exact (Except.ok.inj hreplays).symm
  | commit main c changes hstep _ _ hfiles =>
      have hoverlap := h.overlap.step hstep
      unfold Network.publish
      cases changes with
      | nil => exact h.advance hoverlap hstep.extends hfiles
      | cons change rest => exact h.broadcast hoverlap hstep.extends hfiles
  | other => exact h.broadcast h.overlap (Extends.refl n.main) rfl
  | send w worker op posted hget =>
      have hmem := List.mem_of_getElem? hget
      apply h.setWorker ((h.workers worker hmem).mutate op posted)
      unfold RemoteWorker.mutate
      by_cases hopen : (!worker.client.closed) = true ∧ posted = true
      · rw [if_pos hopen]
        exact h.current worker hmem
      · rw [if_neg hopen]
        exact h.current worker hmem
  | serve w worker id op op' rest hget _ hrequests hcanonical =>
      have hmem := List.mem_of_getElem? hget
      have hadvanced : Sound place initial { n with main := n.main.request op' } :=
        h.advance (h.overlap.request (Mutation.canonical_canonical hcanonical))
          (extends_request n.main op') rfl
      apply hadvanced.setWorker
      · exact (h.workers worker hmem).accept hrequests hcanonical
      · exact h.current worker hmem
  | refuse w worker id op rest record hget _ hrequests _ =>
      have hmem := List.mem_of_getElem? hget
      apply h.respond ((h.workers worker hmem).dropRequest hrequests) (h.current worker hmem)
      intro himpossible
      cases himpossible
  | reply w worker id taskId task result record hget _ howed htask hstatus =>
      have hmem := List.mem_of_getElem? hget
      have hworker := h.workers worker hmem
      apply h.respond (hworker.discharge (id, taskId)) (h.current worker hmem)
      intro hnone
      -- the task succeeded, so the log of commits holds it
      have hsuccess : task.status = Status.settled (Except.ok ()) := by
        cases result with
        | ok value => exact hstatus
        | error refusal => cases hnone
      have hserved := hworker.owed (id, taskId) howed
      rcases hworker.accepted (id, taskId) hserved with ⟨op, task', hop, htask', hcanonical⟩
      rw [htask] at htask'
      rw [← Option.some.inj htask'] at hcanonical
      rcases (h.overlap.succeeded_iff htask).mp (Or.inr hsuccess) with ⟨c, hc, htaskId, hsame⟩
      rcases List.mem_iff_getElem?.mp hc with ⟨i, hi⟩
      refine ⟨i, (List.getElem?_eq_some_iff.mp hi).1, op, taskId, c, hop, ?_, hserved, hi, htaskId⟩
      rw [hsame]
      exact hcanonical
  | deliver w worker message rest hget hattached hinbox =>
      have hmem := List.mem_of_getElem? hget
      apply h.setWorker ((h.workers worker hmem).receive hattached hinbox)
      intro hlinked _
      have hreceived : worker.drained = n.main.files := by
        apply h.current worker hmem _ hattached
        cases message with
        | update changes commits => exact hlinked
        | mutated id error commits => exact hlinked
      unfold drained at hreceived
      rw [hinbox] at hreceived
      cases message with
      | update changes commits => exact hreceived
      | mutated id error commits => exact hreceived
  | detach w worker hget =>
      have hmem := List.mem_of_getElem? hget
      apply h.setWorker (h.workers worker hmem).detach
      exact fun _ himpossible => by cases himpossible
  | unlink w worker hget =>
      have hmem := List.mem_of_getElem? hget
      apply h.setWorker (h.workers worker hmem).unlink
      exact fun himpossible => by cases himpossible

theorem Reachable.sound (h : Reachable place initial n) (hinitial : MapStore.Kept initial) :
    Sound place initial n := by
  induction h with
  | initial => exact Sound.new hinitial
  | step _ hstep ih => exact ih.step hstep

/-- Requests of one worker become tasks in the order it posted them. -/
theorem served_ascending {served : List (Nat × Nat)}
    (h : served.Pairwise (fun a b => a.1 < b.1 ∧ a.2 < b.2)) {a b : Nat × Nat}
    (ha : a ∈ served) (hb : b ∈ served) (hlt : a.1 < b.1) : a.2 < b.2 := by
  rcases List.mem_iff_getElem.mp ha with ⟨i, hi, hgeti⟩
  rcases List.mem_iff_getElem.mp hb with ⟨j, hj, hgetj⟩
  have hpairs := List.pairwise_iff_getElem.mp h
  rcases Nat.lt_trichotomy i j with hij | hij | hij
  · have hboth := hpairs i j hi hj hij
    rw [hgeti, hgetj] at hboth
    exact hboth.2
  · have hsame : a = b := by
      rw [← hgeti, ← hgetj]
      simp only [hij]
    rw [hsame] at hlt
    exact absurd hlt (Nat.lt_irrefl _)
  · have hboth := hpairs j i hj hi hij
    rw [hgeti, hgetj] at hboth
    exact absurd hlt (Nat.lt_asymm hboth.1)

/-- A worker's projection is what the main kernel held after some number of commits;
every mutation whose promise has fulfilled is among them, and the worker's mutations
that share a key or move a subtree are committed in the order it sent them. -/
theorem reads_own_writes {place : Place} {initial : Files} {n : Network}
    {worker : RemoteWorker} (hinitial : MapStore.Kept initial)
    (h : Reachable place initial n) (hworker : worker ∈ n.workers) :
    StateAt place initial n.main.log worker.version worker.files ∧
      (forall promised, promised ∈ worker.client.promises -> forall id,
        Settlement.response id none ∈ promised.settlements ->
        exists i, i < worker.version ∧ worker.Carries n.main id i) ∧
      worker.sent.Pairwise (fun a b => a.1 < b.1) ∧
      (forall id id' i i' c c', worker.Carries n.main id i -> worker.Carries n.main id' i' ->
        n.main.log[i]? = some c -> n.main.log[i']? = some c' ->
        id < id' -> SabPlace.Committed.Ordered c c' -> i < i') := by
  have hsound := h.sound hinitial
  have hself := hsound.workers worker hworker
  refine ⟨hself.state, hself.fulfilled, hself.ascending, ?_⟩
  intro id id' i i' c c' hcarries hcarries' hget hget' hlt hordered
  rcases hcarries with ⟨_, task, d, _, _, hserved, hd, htask⟩
  rcases hcarries' with ⟨_, task', d', _, _, hserved', hd', htask'⟩
  rw [hget] at hd
  rw [hget'] at hd'
  rw [← Option.some.inj hd] at htask
  rw [← Option.some.inj hd'] at htask'
  have hlater : c.task < c'.task := by
    rw [htask, htask']
    exact served_ascending hself.ordered hserved hserved' hlt
  have hconflict := hsound.overlap.conflict_of_ordered (List.mem_of_getElem? hget)
    (List.mem_of_getElem? hget') hordered
  rcases List.getElem?_eq_some_iff.mp hget with ⟨hi, heq⟩
  rcases List.getElem?_eq_some_iff.mp hget' with ⟨hi', heq'⟩
  rcases Nat.lt_trichotomy i i' with hbefore | hsame | hafter
  · exact hbefore
  · have hcommits : c = c' := by
      rw [← heq, ← heq']
      simp only [hsame]
    rw [hcommits] at hlater
    exact absurd hlater (Nat.lt_irrefl _)
  · have hpair := List.pairwise_iff_getElem.mp hsound.overlap.ordered i' i hi' hi hafter
    rw [heq, heq'] at hpair
    exact absurd hlater (Nat.lt_asymm (hpair hconflict.symm))

/-!
A worker writes a file: the update and then the response arrive.
-/

def demoWrite : Mutation := Mutation.write ['/', 'a'] [1] false

def demoChanges : List Change :=
  [(EntryKey.ofSource ['/', 'a'], some { data := [1], stat := { size := 1, mtimeMs := 0 } })]

theorem demo_run : exists n worker, Reachable SabPlace.demoPlace PlaceFiles.empty n ∧
    worker ∈ n.workers ∧ worker.version = 1 ∧
    worker.client.promises = [{ id := some 1, settlements := [Settlement.response 1 none] }] := by
  have hlink := Reachable.step (@Reachable.initial SabPlace.demoPlace PlaceFiles.empty) Step.link
  have hsend := hlink.step (Step.send 0 _ demoWrite true rfl)
  have hserve := hsend.step (Step.serve 0 _ 1 demoWrite demoWrite [] rfl rfl rfl rfl)
  have hstart := hserve.step (Step.advance _
    (SabPlace.Step.start 0 _ 0 rfl rfl (fun m hm => by cases hm)) rfl rfl)
  have hcommit := hstart.step (Step.commit _ _ demoChanges
    (SabPlace.Step.commit 0 _ ['/', 'a'] _ [] (SabPlace.plainEnv 0) demoChanges rfl rfl rfl)
    rfl rfl rfl)
  have hsettle := hcommit.step (Step.advance _ (SabPlace.Step.settle 0 _ _ _ rfl rfl) rfl rfl)
  have hreply := hsettle.step
    (Step.reply 0 _ 1 0 _ (Except.ok ()) [] rfl rfl List.mem_cons_self rfl rfl)
  have hupdate := hreply.step (Step.deliver 0 _ _ _ rfl rfl rfl)
  have hmutated := hupdate.step (Step.deliver 0 _ _ _ rfl rfl rfl)
  exact ⟨_, _, hmutated, List.mem_cons_self, rfl, rfl⟩

theorem reads_own_writes_demo : exists n worker,
    Reachable SabPlace.demoPlace PlaceFiles.empty n ∧ worker ∈ n.workers ∧
      exists i, i < worker.version ∧ RemoteWorker.Carries n.main worker 1 i := by
  rcases demo_run with ⟨n, worker, hreachable, hworker, _, hpromises⟩
  refine ⟨n, worker, hreachable, hworker, ?_⟩
  have hpromise : ({ id := some 1, settlements := [Settlement.response 1 none] } : Promised) ∈
      worker.client.promises := by
    rw [hpromises]
    exact List.mem_cons_self
  exact (reads_own_writes MapStore.Kept.empty hreachable hworker).2.1 _ hpromise 1
    List.mem_cons_self

end Network

end Run

end SharedMemoryFs
