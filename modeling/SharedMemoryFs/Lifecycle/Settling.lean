import SharedMemoryFs.Lifecycle.Finality

/-!
# Initialization settles

Every publication of {lit}`initialize` has a bounded number of awaits, so that its
steps cannot go on forever, and as long as it is underway one of them is enabled.
-/

namespace SharedMemoryFs.Lifecycle

open Foundation

/-!
# Bounds
-/

section Bounds

variable {n m : Nat}

theorem within_do {x : Prog alpha} {f : alpha -> Prog beta} (hx : x.Within n)
    (hf : forall value, (f value).Within m) : (x >>= f).Within (n + m) :=
  Async.within_bind hx hf

theorem within_read {f : Kernel -> Prog alpha} (hf : forall k, (f k).Within n) :
    (Async.read >>= f).Within n := hf

theorem within_alive {f : Unit -> Prog alpha} (hf : (f ()).Within n) :
    (alive >>= f).Within n := by
  intro s
  show (Async.bind f (if s.state = KernelState.closed then Async.throw Fault.closed
    else Async.done ())).Within n
  split_ifs
  · exact trivial
  · exact hf

theorem within_cached {f : Unit -> Prog alpha} (hf : (f ()).Within n) :
    (cached >>= f).Within n := by
  intro s
  show (Async.bind f (if s.cache.isNone = true then Async.throw Fault.missing
    else Async.done ())).Within n
  split_ifs
  · exact trivial
  · exact hf

theorem within_rawOf (hosted : HostedPlace) (key : Key) (file : FileInput) :
    (rawOf hosted key file).Within 1 := by
  unfold rawOf
  cases file.data with
  | some data => exact trivial
  | none =>
      apply within_cached
      refine within_do (m := 0) (Async.within_ask _) ?_
      intro answer
      cases answer with
      | some raw => exact trivial
      | none => exact trivial

theorem within_input (hosted : HostedPlace) (key : Key) (file : FileInput) :
    (input hosted key file).Within 1 := by
  unfold input
  cases hosted.place.preparerOf key with
  | some preparer =>
      refine within_do (m := 0) (within_rawOf hosted key file) ?_
      intro raw
      cases prepareInput hosted key file.stat raw preparer with
      | ok value => exact trivial
      | error error => exact trivial
  | none =>
      simp only
      split_ifs
      · exact within_do (m := 0) (within_rawOf hosted key file) (fun _ => trivial)
      · exact trivial

theorem within_allocate (hosted : HostedPlace) (key : EntryKey) (input : FileInput) :
    (allocate hosted key input).Within 1 := by
  apply within_cached
  refine within_do (m := 0) (Async.within_ask _) ?_
  intro placed
  cases input.data with
  | some data => exact trivial
  | none =>
      cases placed.read with
      | some data => exact trivial
      | none => exact trivial

theorem within_bytecodeLoop (hosted : HostedPlace) (mtimeMs : Nat) (codes : List Place.Code)
    (built : Built) : (bytecodeLoop hosted mtimeMs codes built).Within codes.length := by
  induction codes generalizing built with
  | nil => exact trivial
  | cons code rest ih =>
      have hlater (built : Built) :
          (bytecodeLoop hosted mtimeMs rest built).Within (rest.length + 1) :=
        Async.within_mono (ih built) (Nat.le_succ _)
      unfold bytecodeLoop
      cases code.data with
      | some data =>
          rw [List.length_cons, Nat.add_comm]
          apply within_do (within_allocate hosted _ _)
          intro placed
          cases placed with
          | some _ => exact ih _
          | none =>
              simp only
              split_ifs
              · exact trivial
              · exact ih _
      | none =>
          simp only
          split_ifs
          · exact trivial
          · exact hlater _

theorem length_bytecodeFor (hosted : HostedPlace) (key : Key) (source : Bytes)
    (scriptOptions : Option Cloneable) :
    (hosted.place.bytecodeFor key source scriptOptions).length ≤ 2 := by
  unfold Place.bytecodeFor Place.bytecodeDomains PlaceConfig.bytecodeDomains
  rw [List.length_map, List.length_append]
  split_ifs
  · exact le_refl _
  · exact Nat.le_succ _
  · exact Nat.le_succ _
  · exact Nat.zero_le _

theorem within_bytecode (hosted : HostedPlace) (key : Key) (source : PlaceFile)
    (built : Built) : (bytecode hosted key source built).Within 3 := by
  unfold bytecode
  split_ifs
  · exact trivial
  · apply within_cached
    refine within_do (m := 2) (Async.within_ask _) ?_
    intro answer
    cases answer with
    | some bytes =>
        exact Async.within_mono (within_bytecodeLoop hosted _ _ built)
          (length_bytecodeFor hosted key bytes _)
    | none => exact trivial

theorem within_compressLoop (hosted : HostedPlace) (key : Key) (source : PlaceFile)
    (encoded : List (Encoding × Option Bytes)) (built : Built) :
    (compressLoop hosted key source encoded built).Within encoded.length := by
  induction encoded generalizing built with
  | nil => exact trivial
  | cons code rest ih =>
      rcases code with ⟨encoding, data?⟩
      cases data? with
      | none => exact Async.within_mono (ih _) (Nat.le_succ _)
      | some data =>
          rw [List.length_cons, Nat.add_comm]
          apply within_do (within_allocate hosted _ _)
          intro placed
          cases placed with
          | some _ => exact ih _
          | none => exact ih _

theorem within_encoders (hosted : HostedPlace) (key : Key) (bytes : Option Bytes) :
    (encoders hosted key bytes).Within 1 := by
  cases bytes with
  | some _ => exact within_cached (Async.within_ask _)
  | none => exact trivial

theorem within_compress (hosted : HostedPlace) (key : Key) (source : PlaceFile)
    (built : Built) :
    (compress hosted key source built).Within (1 + (1 + hosted.place.config.codecs.length)) := by
  apply within_cached
  split_ifs
  · apply within_do (Async.within_ask _)
    intro bytes
    apply within_do (within_encoders hosted key bytes)
    intro encode
    apply within_alive
    have hloop := within_compressLoop hosted key source
      (hosted.place.config.codecs.map (fun codec => (codec.encoding, encode codec.encoding)))
      built
    rw [List.length_map] at hloop
    exact hloop
  · exact trivial

theorem within_storeShared (ep : EpochRef) (hosted : HostedPlace) (key : Key)
    (input : FileInput) :
    (storeShared ep hosted key input).Within
      (1 + (4 + (1 + (1 + hosted.place.config.codecs.length) + 1 + 0))) := by
  apply within_do (within_allocate hosted _ input)
  intro placed
  cases placed with
  | none => exact trivial
  | some data =>
      apply within_alive
      apply within_do (n := 4) (Async.within_settle (within_bytecode hosted key _ _))
      intro compiled
      apply within_do (Async.within_settle (within_compress hosted key _ compiled))
      intro built
      exact within_alive (fun _ => trivial)

/-- The awaits of one publication. -/
def entryBound (hosted : HostedPlace) : Nat :=
  2 + (1 + (4 + (1 + (1 + hosted.place.config.codecs.length) + 1 + 0)) + 1 + 0)

theorem within_publishEntry (ep : EpochRef) (hosted : HostedPlace) (key : Key)
    (file : FileInput) : (publishEntry ep hosted key file).Within (entryBound hosted) := by
  apply within_do (n := 2) (Async.within_settle (within_input hosted key file))
  intro canonical
  apply within_alive
  split_ifs
  · have hmap : (publishMap hosted key canonical).Within 0 := by
      apply within_read
      intro s
      dsimp only
      cases MapStore.publish hosted.place (s.files hosted.name) key _ with
      | error refusal => exact trivial
      | ok own => exact trivial
    exact Async.within_mono (within_do (m := 0) hmap (fun _ _ => trivial)) (Nat.zero_le _)
  · exact within_do (Async.within_settle (within_storeShared ep hosted key canonical))
      (fun _ _ => trivial)

end Bounds

/-!
# A measure of what is left
-/

/-- The awaits a suspended function has left at most. -/
noncomputable def Suspended.depth (task : Suspended) : Nat :=
  sInf {n | forall answer, (task.next answer).Within n}

noncomputable def Suspended.weight (task : Suspended) : Nat :=
  match task.role with
  | Role.entry _ => task.depth + 1
  | _ => 0

noncomputable def Runtime.weight (r : Runtime) : Nat := r.tasks.total Suspended.weight

def Runtime.Bounded (r : Runtime) : Prop :=
  forall id task, r.tasks.get id = some task -> Runtime.isEntry task.role ->
    exists n, forall answer, (task.next answer).Within n

/-- How many of its own resumes {lit}`initialize` has before it. -/
def Init.stage : Init -> Nat
  | Init.scanning _ _ rest => 3 * rest.length + 3
  | Init.originated _ _ rest _ => 3 * rest.length + 2
  | Init.publishing _ rest => 3 * rest.length + 1
  | _ => 0

noncomputable def Runtime.left (r : Runtime) : Nat ×ₗ (Nat ×ₗ Nat) :=
  toLex (r.init.stage, toLex (r.queue.length, r.weight))

theorem weight_of_not_entry {task : Suspended} (h : ¬ Runtime.isEntry task.role) :
    task.weight = 0 := by
  unfold Suspended.weight
  cases hrole : task.role with
  | entry ep =>
      rw [hrole] at h
      exact absurd trivial h
  | job ep => rfl
  | recheck => rfl
  | mutation => rfl

theorem weight_of_entry {task : Suspended} (h : Runtime.isEntry task.role) :
    task.weight = task.depth + 1 := by
  unfold Suspended.weight
  cases hrole : task.role with
  | entry ep => rfl
  | job ep =>
      rw [hrole] at h
      exact h.elim
  | recheck =>
      rw [hrole] at h
      exact h.elim
  | mutation =>
      rw [hrole] at h
      exact h.elim

theorem weight_suspend (r : Runtime) (role : Role) (question : Ask)
    (next : question.reply -> Prog Unit) :
    (r.suspend role question next).weight ≤ r.weight + Suspended.weight ⟨role, question, next⟩ := by
  have htotal := OrderedMap.total_set r.tasks r.nextTask ⟨role, question, next⟩ Suspended.weight
  unfold Runtime.weight Runtime.suspend
  rw [← htotal]
  exact Nat.le_add_right _ _

theorem weight_delete {r : Runtime} {id : Nat} {task : Suspended}
    (hget : r.tasks.get id = some task) :
    Runtime.weight { r with tasks := r.tasks.delete id } + task.weight = r.weight := by
  have htotal := OrderedMap.total_delete r.tasks id Suspended.weight
  rw [hget] at htotal
  exact htotal

theorem not_entry_job (ep : EpochRef) : ¬ Runtime.isEntry (Role.job ep) := not_false

theorem not_entry_recheck : ¬ Runtime.isEntry Role.recheck := not_false

theorem not_entry_mutation : ¬ Runtime.isEntry Role.mutation := not_false

/-- A step that leaves {lit}`initialize` as it is and adds nothing to its work. -/
structure Runtime.Calm (r r' : Runtime) : Prop where
  init : r'.init = r.init
  queue : r'.queue = r.queue
  weight : r'.weight ≤ r.weight
  bounded : r.Bounded -> r'.Bounded

namespace Runtime.Calm

theorem refl (r : Runtime) : r.Calm r := ⟨rfl, rfl, le_refl _, fun h => h⟩

theorem trans {r r' r'' : Runtime} (h : r.Calm r') (h' : r'.Calm r'') : r.Calm r'' :=
  ⟨h'.init.trans h.init, h'.queue.trans h.queue, h'.weight.trans h.weight,
    fun hb => h'.bounded (h.bounded hb)⟩

theorem of_same {r r' : Runtime} (hinit : r'.init = r.init) (hqueue : r'.queue = r.queue)
    (htasks : r'.tasks = r.tasks) : r.Calm r' := by
  constructor
  · exact hinit
  · exact hqueue
  · unfold Runtime.weight
    rw [htasks]
  · intro hb id task hget
    rw [htasks] at hget
    exact hb id task hget

theorem left_le {r r' : Runtime} (h : r.Calm r') : r'.left ≤ r.left := by
  unfold Runtime.left
  rw [h.init, h.queue]
  rw [Prod.Lex.toLex_le_toLex]
  right
  constructor
  · rfl
  · rw [Prod.Lex.toLex_le_toLex]
    right
    exact ⟨rfl, h.weight⟩

end Runtime.Calm

theorem bounded_delete {r : Runtime} (h : r.Bounded) (id : Nat) :
    Runtime.Bounded { r with tasks := r.tasks.delete id } := by
  intro id' task hget
  by_cases hid : id' = id
  · rw [hid] at hget
    cases (OrderedMap.get_delete_self r.tasks id).symm.trans hget
  · exact h id' task ((OrderedMap.get_delete_ne r.tasks hid).symm.trans hget)

theorem bounded_suspend {r : Runtime} (h : r.Bounded) {role : Role} {question : Ask}
    {next : question.reply -> Prog Unit}
    (hnext : Runtime.isEntry role -> exists n, forall answer, (next answer).Within n) :
    (r.suspend role question next).Bounded := by
  intro id task hget
  by_cases hid : id = r.nextTask
  · rw [hid] at hget
    have heq := (OrderedMap.get_set_self r.tasks r.nextTask _).symm.trans hget
    cases heq
    exact hnext
  · exact h id task ((OrderedMap.get_set_ne r.tasks _ hid).symm.trans hget)

namespace Runtime.Calm

theorem delete (r : Runtime) (id : Nat) : r.Calm { r with tasks := r.tasks.delete id } := by
  constructor
  · rfl
  · rfl
  · have htotal := OrderedMap.total_delete r.tasks id Suspended.weight
    unfold Runtime.weight
    rw [← htotal]
    exact Nat.le_add_right _ _
  · intro h
    exact bounded_delete h id

theorem suspend {role : Role} (hrole : ¬ Runtime.isEntry role) (r : Runtime) (question : Ask)
    (next : question.reply -> Prog Unit) : r.Calm (r.suspend role question next) := by
  constructor
  · rfl
  · rfl
  · have hweight := weight_suspend r role question next
    rw [weight_of_not_entry hrole] at hweight
    exact hweight
  · intro h
    exact bounded_suspend h (fun hentry => absurd hentry hrole)

theorem ended {role : Role} (hrole : ¬ Runtime.isEntry role) (r : Runtime) (ok : Bool) :
    r.Calm (r.ended ok role) := by
  cases role with
  | entry ep => exact absurd trivial hrole
  | job ep => exact refl r
  | recheck => exact of_same rfl rfl rfl
  | mutation => exact refl r

theorem runTask {role : Role} (hrole : ¬ Runtime.isEntry role) (r : Runtime) (x : Prog Unit) :
    r.Calm (r.runTask role x) := by
  unfold Runtime.runTask
  cases Async.run x r.kernel with
  | mk k paused =>
      have hset : r.Calm (r.setKernel k) := of_same rfl rfl rfl
      cases paused with
      | returned value => exact hset.trans (ended hrole _ true)
      | threw error => exact hset.trans (ended hrole _ false)
      | waiting question next => exact hset.trans (suspend hrole _ question next)

theorem startJobs (ep : EpochRef) (events : List (HostedPlace × Key × Change)) (r : Runtime) :
    r.Calm (events.foldl (Runtime.startJob ep) r) := by
  induction events generalizing r with
  | nil => exact refl r
  | cons event rest ih =>
      have hfirst : r.Calm (Runtime.startJob ep r event) := by
        unfold Runtime.startJob
        split_ifs
        · exact runTask (not_entry_job ep) r _
        · exact refl r
      exact hfirst.trans (ih _)

theorem serialTurn (r : Runtime) (task : Serial) (rest : List Serial) :
    r.Calm (r.serialTurn task rest) := by
  have hturned : r.Calm { r with serial := rest } := of_same rfl rfl rfl
  unfold Runtime.serialTurn
  simp only
  split_ifs
  · cases task with
    | epoch events =>
        have hopened : r.Calm
            { ({ r with serial := rest }.setKernel r.kernel.openEpoch) with
              running := some (Running.epoch r.kernel.nextEpoch) } := of_same rfl rfl rfl
        exact hopened.trans (startJobs _ events _)
    | recheck hosted key =>
        have hrunning : r.Calm { r with serial := rest, running := some Running.recheck } :=
          of_same rfl rfl rfl
        exact hrunning.trans (runTask not_entry_recheck _ _)
  · exact hturned

theorem mutate (r : Runtime) (op : VirtualOp) : r.Calm (r.mutate op) := by
  unfold Runtime.mutate
  split_ifs
  · exact runTask not_entry_mutation r _
  · exact refl r

end Runtime.Calm

/-!
# Its own steps
-/

/-- What a step of a publication leaves of the queue and of what is in flight. -/
structure Runtime.Shrinks (r r' : Runtime) (weight : Nat) : Prop where
  init : r'.init = r.init
  less : r'.queue.length < r.queue.length ∨ (r'.queue = r.queue ∧ r'.weight ≤ weight)
  bounded : r.Bounded -> r'.Bounded

theorem feed_shrinks (ep : EpochRef) (queue : List (HostedPlace × Key × FileInput))
    (r : Runtime) :
    (Runtime.feed ep queue r).init = r.init ∧
      (r.Bounded -> (Runtime.feed ep queue r).Bounded) ∧
        (queue ≠ [] -> (Runtime.feed ep queue r).queue.length < queue.length) := by
  induction queue generalizing r with
  | nil =>
      constructor
      · rfl
      · constructor
        · intro h
          exact h
        · intro h
          exact absurd rfl h
  | cons item rest ih =>
      rcases item with ⟨hosted, key, file⟩
      have hwithin := within_publishEntry ep hosted key file
      unfold Runtime.feed
      cases hrun : Async.run (publishEntry ep hosted key file) r.kernel with
      | mk k paused =>
          cases paused with
          | returned value =>
              have hrest := ih (r.setKernel k)
              simp only
              constructor
              · exact hrest.1
              · constructor
                · intro h
                  exact hrest.2.1 h
                · intro _
                  cases rest with
                  | nil => exact Nat.zero_lt_one
                  | cons next rest =>
                      exact Nat.lt_succ_of_lt (hrest.2.2 (List.cons_ne_nil next rest))
          | threw error =>
              constructor
              · rfl
              · constructor
                · intro h
                  exact h
                · intro _
                  exact Nat.lt_succ_self _
          | waiting question next =>
              simp only
              constructor
              · rfl
              · constructor
                · intro h
                  apply bounded_suspend
                  · exact h
                  · intro _
                    rcases Async.within_run hwithin r.kernel hrun with ⟨m, _, hnext⟩
                    exact ⟨m, hnext⟩
                · intro _
                  exact Nat.lt_succ_self _

theorem ended_shrinks {role : Role} (hrole : Runtime.isEntry role) (r : Runtime) (ok : Bool) :
    r.Shrinks (r.ended ok role) r.weight := by
  have hsame {r' : Runtime} (hinit : r'.init = r.init) (hqueue : r'.queue = r.queue)
      (htasks : r'.tasks = r.tasks) : r.Shrinks r' r.weight :=
    have hcalm : r.Calm r' := Runtime.Calm.of_same hinit hqueue htasks
    ⟨hinit, Or.inr ⟨hqueue, hcalm.weight⟩, hcalm.bounded⟩
  cases role with
  | job ep => exact hrole.elim
  | recheck => exact hrole.elim
  | mutation => exact hrole.elim
  | entry ep =>
      unfold Runtime.ended
      simp only
      split_ifs
      · exact hsame rfl rfl rfl
      · cases hqueue : r.queue with
        | nil => exact hsame rfl hqueue.symm rfl
        | cons file rest =>
            have hfeed := feed_shrinks ep (file :: rest) r
            constructor
            · exact hfeed.1
            · rw [hqueue]
              exact Or.inl (hfeed.2.2 (List.cons_ne_nil file rest))
            · exact hfeed.2.1
      · exact hsame rfl rfl rfl

theorem depth_le {task : Suspended} {n : Nat} (h : forall answer, (task.next answer).Within n) :
    task.depth ≤ n :=
  Nat.sInf_le h

/-- Resuming a publication brings {lit}`initialize` closer to its end. -/
theorem runTask_shrinks {role : Role} (hrole : Runtime.isEntry role) {x : Prog Unit} {n : Nat}
    (hx : x.Within n) (r : Runtime) : r.Shrinks (r.runTask role x) (r.weight + n) := by
  unfold Runtime.runTask
  cases hrun : Async.run x r.kernel with
  | mk k paused =>
      have hended (ok : Bool) :
          r.Shrinks ((r.setKernel k).ended ok role) (r.weight + n) := by
        have hshrinks := ended_shrinks hrole (r.setKernel k) ok
        constructor
        · exact hshrinks.init
        · rcases hshrinks.less with hless | ⟨hqueue, hweight⟩
          · exact Or.inl hless
          · exact Or.inr ⟨hqueue, Nat.le_add_right_of_le hweight⟩
        · exact hshrinks.bounded
      cases paused with
      | returned value => exact hended true
      | threw error => exact hended false
      | waiting question next =>
          rcases Async.within_run hx r.kernel hrun with ⟨m, hlt, hnext⟩
          constructor
          · rfl
          · right
            constructor
            · rfl
            · have hweight := weight_suspend (r.setKernel k) role question next
              rw [weight_of_entry hrole] at hweight
              have hdepth : Suspended.depth ⟨role, question, next⟩ ≤ m := depth_le hnext
              have hset : (r.setKernel k).weight = r.weight := rfl
              simp only
              omega
          · intro h
            apply bounded_suspend
            · exact h
            · intro _
              exact ⟨m, hnext⟩

theorem left_lt_of_stage {r r' : Runtime} (h : r'.init.stage < r.init.stage) :
    r'.left < r.left := by
  unfold Runtime.left
  rw [Prod.Lex.toLex_lt_toLex]
  exact Or.inl h

theorem resume_entry {r : Runtime} {id : Nat} {task : Suspended} (hb : r.Bounded)
    (hget : r.tasks.get id = some task) (hrole : Runtime.isEntry task.role)
    (answer : task.question.reply) :
    (r.resume id task answer).Bounded ∧ (r.resume id task answer).left < r.left := by
  rcases hb id task hget hrole with ⟨n, hn⟩
  have hdepth : forall answer, (task.next answer).Within task.depth :=
    Nat.sInf_mem (s := {n | forall answer, (task.next answer).Within n}) ⟨n, hn⟩
  have hshrinks := runTask_shrinks hrole (hdepth answer) { r with tasks := r.tasks.delete id }
  have hdelete := weight_delete hget
  rw [weight_of_entry hrole] at hdelete
  constructor
  · exact hshrinks.bounded (bounded_delete hb id)
  · unfold Runtime.left
    rw [Prod.Lex.toLex_lt_toLex]
    right
    constructor
    · exact congrArg Init.stage hshrinks.init
    · rw [Prod.Lex.toLex_lt_toLex]
      rcases hshrinks.less with hless | ⟨hqueue, hweight⟩
      · exact Or.inl hless
      · right
        constructor
        · exact congrArg List.length hqueue
        · show (r.resume id task answer).weight < r.weight
          unfold Runtime.resume
          omega

/-!
# One step
-/

theorem publishAll_bounded (config : Config) (ep : EpochRef) (hosted : HostedPlace)
    (files : List (Key × FileInput)) {r : Runtime} (hb : r.Bounded) :
    (r.publishAll config ep hosted files).Bounded := by
  have hworkers (n : Nat) (r : Runtime) (hb : r.Bounded) :
      (Runtime.startWorkers ep n r).Bounded := by
    induction n generalizing r with
    | zero => exact hb
    | succ n ih =>
        unfold Runtime.startWorkers
        apply ih
        split_ifs
        · exact hb
        · exact (feed_shrinks ep r.queue r).2.1 hb
  unfold Runtime.publishAll
  exact hworkers _ _ hb

theorem nextPlace_bounded {config : Config} {r : Runtime} (hb : r.Bounded) (ep : EpochRef)
    (rest : List HostedPlace) : (r.nextPlace config ep rest).Bounded := by
  cases rest with
  | cons hosted rest => exact hb
  | nil =>
      show (r.finishInit config ep).Bounded
      unfold Runtime.finishInit
      cases Async.run (flush ep) r.kernel with
      | mk k paused =>
          cases paused with
          | returned value =>
              simp only
              split_ifs
              · intro id task hget
                rw [watch_tasks] at hget
                exact hb id task hget
              · exact hb
          | threw error => exact hb
          | waiting question next => exact hb

theorem finishInit_stage (config : Config) (r : Runtime) (ep : EpochRef) :
    (r.finishInit config ep).init.stage = 0 := by
  have hwatch (r : Runtime) : (r.watch config).init = r.init := by
    unfold Runtime.watch
    split_ifs
    · rfl
    · rfl
  unfold Runtime.finishInit
  cases Async.run (flush ep) r.kernel with
  | mk k paused =>
      cases paused with
      | returned value =>
          simp only
          split_ifs
          · rw [hwatch]
            rfl
          · rfl
      | threw error => rfl
      | waiting question next => rfl

theorem nextPlace_stage (config : Config) (r : Runtime) (ep : EpochRef)
    (rest : List HostedPlace) :
    (r.nextPlace config ep rest).init.stage ≤ 3 * rest.length := by
  cases rest with
  | nil =>
      show (r.finishInit config ep).init.stage ≤ 0
      rw [finishInit_stage]
  | cons hosted rest =>
      show (Runtime.startOrigin config ep hosted rest).stage ≤ 3 * (rest.length + 1)
      unfold Runtime.startOrigin
      split_ifs
      · simp only [Init.stage]
        omega
      · simp only [Init.stage]
        omega
      · simp only [Init.stage]
        omega

/-- A step is calm, or one of those of {lit}`initialize` that bring it closer to its
end. -/
theorem step_left {config : Config} {r r' : Runtime} {label : Label}
    (h : Step config r label r') (hb : r.Bounded) :
    (r.Calm r' ∧ label ≠ Label.own ∧ label ≠ Label.place) ∨
      (r'.Bounded ∧ r'.left < r.left) ∨
        (r.kernel.state = KernelState.new ∧ r'.Bounded) := by
  cases h with
  | initKernel hnew =>
      refine Or.inr (Or.inr ⟨hnew, ?_⟩)
      apply nextPlace_bounded
      exact hb
  | scanned ep hosted rest files hinit =>
      right
      left
      constructor
      · exact hb
      · apply left_lt_of_stage
        rw [hinit]
        exact Nat.lt_succ_self _
  | originated ep hosted rest files hinit =>
      right
      left
      cases files with
      | none =>
          constructor
          · exact nextPlace_bounded hb ep rest
          · apply left_lt_of_stage
            rw [hinit]
            have hstage := nextPlace_stage config r ep rest
            show (r.nextPlace config ep rest).init.stage < 3 * rest.length + 2
            omega
      | some files =>
          constructor
          · exact publishAll_bounded config ep hosted files hb
          · apply left_lt_of_stage
            rw [hinit]
            exact Nat.lt_succ_self _
  | published ep rest hinit hfailed hpending =>
      right
      left
      constructor
      · exact nextPlace_bounded hb ep rest
      · apply left_lt_of_stage
        rw [hinit]
        exact Nat.lt_succ_of_le (nextPlace_stage config r ep rest)
  | failed ep rest hinit hfailed =>
      right
      left
      constructor
      · exact hb
      · apply left_lt_of_stage
        rw [hinit]
        exact Nat.zero_lt_succ _
  | resume id task answer hget =>
      by_cases hrole : Runtime.isEntry task.role
      · exact Or.inr (Or.inl (resume_entry hb hget hrole answer))
      · left
        constructor
        · exact (Runtime.Calm.delete r id).trans (Runtime.Calm.runTask hrole _ _)
        · cases hcase : task.role with
          | entry ep =>
              rw [hcase] at hrole
              exact absurd trivial hrole
          | job ep => exact ⟨Label.noConfusion, Label.noConfusion⟩
          | recheck => exact ⟨Label.noConfusion, Label.noConfusion⟩
          | mutation => exact ⟨Label.noConfusion, Label.noConfusion⟩
  | mutate op =>
      exact Or.inl ⟨Runtime.Calm.mutate r op, Label.noConfusion, Label.noConfusion⟩
  | epoch events hwatcher =>
      exact Or.inl ⟨Runtime.Calm.of_same rfl rfl rfl, Label.noConfusion, Label.noConfusion⟩
  | fire hosted key hget =>
      exact Or.inl ⟨Runtime.Calm.of_same rfl rfl rfl, Label.noConfusion, Label.noConfusion⟩
  | serial task rest hrunning hserial =>
      exact Or.inl
        ⟨Runtime.Calm.serialTurn r task rest, Label.noConfusion, Label.noConfusion⟩
  | endEpoch ep hrunning hpending =>
      exact Or.inl ⟨Runtime.Calm.of_same rfl rfl rfl, Label.noConfusion, Label.noConfusion⟩
  | close =>
      exact Or.inl ⟨Runtime.Calm.of_same rfl rfl rfl, Label.noConfusion, Label.noConfusion⟩

theorem reachable_bounded {config : Config} {r : Runtime} (h : Reachable config r) :
    r.Bounded := by
  induction h with
  | new =>
      intro id task hget
      cases hget
  | step _ hstep ih =>
      rcases step_left hstep ih with ⟨hcalm, _⟩ | ⟨hb, _⟩ | ⟨_, hb⟩
      · exact hcalm.bounded ih
      · exact hb
      · exact hb

theorem reply_nonempty (question : Ask) : Nonempty question.reply := by
  cases question with
  | turn => exact ⟨()⟩
  | read hosted key file => exact ⟨(none : Option Bytes)⟩
  | allocate hosted key input => exact ⟨(⟨false, none⟩ : Placed)⟩
  | entryBytes hosted key data => exact ⟨(none : Option Bytes)⟩
  | compress hosted key => exact ⟨(fun _ => none : Encoding -> Option Bytes)⟩
  | stat hosted key => exact ⟨(none : Option DiskStat)⟩
  | scan hosted start => exact ⟨([] : List (Key × FileInput))⟩

/-- {lit}`initialize` never hangs on anything but an answer. -/
theorem underway_enabled (config : Config) {r : Runtime} (h : r.init.Underway) :
    exists label r', (label = Label.own ∨ label = Label.place) ∧ Step config r label r' := by
  cases hinit : r.init with
  | idle =>
      rw [hinit] at h
      exact h.elim
  | resolved =>
      rw [hinit] at h
      exact h.elim
  | rejected =>
      rw [hinit] at h
      exact h.elim
  | scanning ep hosted rest =>
      exact ⟨_, _, Or.inl rfl, Step.scanned ep hosted rest [] hinit⟩
  | originated ep hosted rest files =>
      exact ⟨_, _, Or.inr rfl, Step.originated ep hosted rest files hinit⟩
  | publishing ep rest =>
      cases hfailed : r.failed with
      | true => exact ⟨_, _, Or.inl rfl, Step.failed ep rest hinit hfailed⟩
      | false =>
          by_cases hpending : r.Pending Runtime.isEntry
          · rcases hpending with ⟨id, task, hget, hrole⟩
            rcases reply_nonempty task.question with ⟨answer⟩
            refine ⟨_, _, Or.inl ?_, Step.resume id task answer hget⟩
            cases hcase : task.role with
            | entry ep => rfl
            | job ep =>
                rw [hcase] at hrole
                exact hrole.elim
            | recheck =>
                rw [hcase] at hrole
                exact hrole.elim
            | mutation =>
                rw [hcase] at hrole
                exact hrole.elim
          · exact ⟨_, _, Or.inr rfl, Step.published ep rest hinit hfailed hpending⟩

/-!
# Fair runs
-/

/-- An infinite run that resumes {lit}`initialize` as long as it is underway. -/
structure FairRun (config : Config) (states : Nat -> Runtime) (label : Nat -> Label) : Prop where
  step : forall n, Step config (states n) (label n) (states (n + 1))
  fair : forall n, (states n).init.Underway ->
    exists m, n ≤ m ∧ (label m = Label.own ∨ label m = Label.place)

/-- What an overtaken {lit}`initialize` keeps as long as its run is guarded. -/
structure Overtaking (r : Runtime) : Prop where
  kept : r.Kept
  bounded : r.Bounded
  closed : r.kernel.state = KernelState.closed
  init : r.init.Underway ∨ r.init = Init.rejected

theorem step_overtaking {config : Config} {r r' : Runtime} {label : Label}
    (h : Step config r label r') (hr : Overtaking r) (hahead : ¬ r.Overtaken label) :
    Overtaking r' := by
  have hfinal := step_final h hr.kept hr.closed hahead
  constructor
  · exact step_kept h hr.kept
  · rcases step_left h hr.bounded with ⟨hcalm, _⟩ | ⟨hb, _⟩ | ⟨_, hb⟩
    · exact hcalm.bounded hr.bounded
    · exact hb
    · exact hb
  · exact hfinal.state
  · rcases hr.init with hunderway | hrejected
    · exact hfinal.overtaken hunderway
    · exact Or.inr (hfinal.settled hrejected)

/-- Resumed as long as it is underway, an overtaken {lit}`initialize` rejects. -/
theorem overtaken_rejects {config : Config} {states : Nat -> Runtime} {label : Nat -> Label}
    (hstart : Overtaking (states 0)) (hrun : FairRun config states label)
    (hguarded : forall n, ¬ (states n).Overtaken (label n)) :
    exists n, (states n).init = Init.rejected := by
  have hall (n : Nat) : Overtaking (states n) := by
    induction n with
    | zero => exact hstart
    | succ n ih => exact step_overtaking (hrun.step n) ih (hguarded n)
  by_contra hnever
  have hunderway (n : Nat) : (states n).init.Underway := by
    rcases (hall n).init with h | h
    · exact h
    · exact absurd ⟨n, h⟩ hnever
  have hstep (n : Nat) : (states (n + 1)).left ≤ (states n).left ∧
      ((label n = Label.own ∨ label n = Label.place) ->
        (states (n + 1)).left < (states n).left) := by
    rcases step_left (hrun.step n) (hall n).bounded with ⟨hcalm, hown, hplace⟩ | ⟨_, hlt⟩ |
      ⟨hnew, _⟩
    · constructor
      · exact hcalm.left_le
      · rintro (h | h)
        · exact absurd h hown
        · exact absurd h hplace
    · exact ⟨hlt.le, fun _ => hlt⟩
    · rw [(hall n).closed] at hnew
      cases hnew
  have hanti : Antitone (fun n => (states n).left) :=
    antitone_nat_of_succ_le (fun n => (hstep n).1)
  have hdescends (left : Nat ×ₗ (Nat ×ₗ Nat)) :
      forall n, (states n).left = left -> False := by
    induction left using WellFoundedLT.induction with
    | ind left ih =>
        intro n hleft
        rcases hrun.fair n (hunderway n) with ⟨m, hle, hlabel⟩
        have hlt : (states (m + 1)).left < left := by
          rw [← hleft]
          exact lt_of_lt_of_le ((hstep m).2 hlabel) (hanti hle)
        exact ih _ hlt (m + 1) rfl
  exact hdescends _ 0 rfl

end SharedMemoryFs.Lifecycle
