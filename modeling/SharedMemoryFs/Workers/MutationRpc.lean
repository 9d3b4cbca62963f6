import SharedMemoryFs.Cache.Entries
import SharedMemoryFs.Foundation.OrderedMap

/-!
# Mutation requests of a worker

A worker never writes the shared memory itself: its mutations travel to the main
kernel over the port of its link, and their responses come back over the same port.
Here are the two ends, each on its own.
-/

namespace SharedMemoryFs

open Foundation

/-!
# Errors on the port
-/

/-- What reading one property of a thrown value gives. -/
inductive Property where
  | missing
  | cloneable (value : Cloneable)
  | uncloneable
  | throws
deriving DecidableEq, Repr

/-- A thrown value, by its properties. -/
inductive Thrown where
  | undefined
  | null
  | value (read : String -> Property)

/-- The fields of an error record, its message aside. -/
def errorFields : List String :=
  ["name", "code", "errno", "syscall", "path", "dest", "info"]

abbrev ErrorRecord := List (String × Property)

/-- A value that was read goes in front of the record; reading it may throw. -/
def recorded (field : String) : Property -> Option ErrorRecord -> Option ErrorRecord
  | Property.throws, _ => none
  | value, record => record.map (fun record => (field, value) :: record)

/-- The fields that are there. -/
def recordFields (read : String -> Property) : List String -> Option ErrorRecord
  | [] => some []
  | field :: rest =>
      if read field = Property.missing then recordFields read rest
      else recorded field (read field) (recordFields read rest)

/-- {lit}`errorOf`, missing when it throws itself. -/
def errorOf : Thrown -> Option ErrorRecord
  | Thrown.undefined => none
  | Thrown.null => none
  | Thrown.value read => recorded "message" (read "message") (recordFields read errorFields)

/-- {lit}`postMessage` can clone the record. -/
def clones (record : ErrorRecord) : Bool :=
  record.all (fun field => decide (field.2 ≠ Property.uncloneable))

def Property.Portable (value : Property) : Prop :=
  value ≠ Property.throws ∧ value ≠ Property.uncloneable

/-- The record of a thrown value can be made and posted. -/
def Thrown.Portable : Thrown -> Prop
  | Thrown.undefined => False
  | Thrown.null => False
  | Thrown.value read => forall field, field ∈ "message" :: errorFields -> (read field).Portable

/-- There is a record, and it can be cloned. -/
def Posts (record : Option ErrorRecord) : Prop :=
  exists fields, record = some fields ∧ clones fields = true

theorem recorded_posts (field : String) (value : Property) (record : Option ErrorRecord) :
    Posts (recorded field value record) <-> value.Portable ∧ Posts record := by
  have hmap : (exists fields, record.map (fun record => (field, value) :: record) = some fields ∧
      clones fields = true) <-> value ≠ Property.uncloneable ∧ Posts record := by
    constructor
    · intro h
      rcases h with ⟨fields, hfields, hclones⟩
      rcases Option.map_eq_some_iff.mp hfields with ⟨tail, htail, heq⟩
      rw [← heq] at hclones
      have hparts := (Bool.and_eq_true _ _).mp hclones
      exact ⟨of_decide_eq_true hparts.1, tail, htail, hparts.2⟩
    · intro h
      rcases h with ⟨hvalue, tail, htail, hclones⟩
      refine ⟨(field, value) :: tail, by rw [htail]; rfl, ?_⟩
      exact (Bool.and_eq_true _ _).mpr ⟨decide_eq_true hvalue, hclones⟩
  cases value with
  | throws =>
      apply iff_of_false
      · intro h
        rcases h with ⟨fields, hfields, _⟩
        cases hfields
      · exact fun h => h.1.1 rfl
  | _ =>
      refine hmap.trans (and_congr_left' ?_)
      exact ⟨fun h => ⟨nofun, h⟩, fun h => h.2⟩

theorem recordFields_posts (read : String -> Property) (fields : List String) :
    Posts (recordFields read fields) <->
      forall field, field ∈ fields -> (read field).Portable := by
  induction fields with
  | nil => exact iff_of_true ⟨[], rfl, rfl⟩ (fun field hfield => by cases hfield)
  | cons field rest ih =>
      rw [List.forall_mem_cons, ← ih, recordFields]
      by_cases hmissing : read field = Property.missing
      · rw [if_pos hmissing, hmissing]
        exact ⟨fun h => ⟨⟨nofun, nofun⟩, h⟩, fun h => h.2⟩
      · rw [if_neg hmissing]
        exact recorded_posts field (read field) _

theorem errorOf_posts (thrown : Thrown) : Posts (errorOf thrown) <-> thrown.Portable := by
  cases thrown with
  | undefined => exact iff_of_false (fun h => by rcases h with ⟨_, h, _⟩; cases h) id
  | null => exact iff_of_false (fun h => by rcases h with ⟨_, h, _⟩; cases h) id
  | value read =>
      show Posts (recorded _ _ _) <-> forall field, field ∈ "message" :: errorFields -> _
      rw [List.forall_mem_cons, recorded_posts, recordFields_posts]

/-!
# The main kernel's end

One link that stays open.  A request is served when it arrives; its operation throws
at once or settles later.
-/

structure Serving where
  id : Nat
  outcome : Option (Except Thrown Unit)

/-- A {lit}`vfs-mutated` message.  {lit}`request` says which request it was posted for;
nothing reads it. -/
structure Reply where
  request : Nat
  id : Nat
  error : Option ErrorRecord
deriving DecidableEq, Repr

structure MutationServer where
  served : List Serving
  posted : List Reply

/-- What {lit}`#serveMutation` can answer. -/
def Answerable : Except Thrown Unit -> Prop
  | Except.ok () => True
  | Except.error thrown => thrown.Portable

namespace MutationServer

def new : MutationServer := ⟨[], []⟩

/-- {lit}`reply`: a record that cannot be cloned is not posted. -/
def reply (s : MutationServer) (request id : Nat) (error : Option ErrorRecord) :
    MutationServer :=
  if error.all clones then
    { s with posted := s.posted ++ [{ request := request, id := id, error := error }] }
  else s

/-- The end of an operation; {lit}`errorOf` may throw before the reply. -/
def answer (s : MutationServer) (request id : Nat) : Except Thrown Unit -> MutationServer
  | Except.ok () => s.reply request id none
  | Except.error thrown =>
      match errorOf thrown with
      | none => s
      | some record => s.reply request id (some record)

/-- {lit}`#serveMutation`; {lit}`thrown` is what the operation throws at once. -/
def serve (s : MutationServer) (id : Nat) (thrown : Option Thrown) : MutationServer :=
  let served := { s with served := s.served ++ [{ id := id, outcome := thrown.map Except.error }] }
  match thrown with
  | none => served
  | some thrown => served.answer s.served.length id (Except.error thrown)

/-- The promise of an operation settles, once. -/
def settle (s : MutationServer) (request : Nat) (outcome : Except Thrown Unit) :
    MutationServer :=
  match s.served[request]? with
  | none => s
  | some serving =>
      if serving.outcome.isSome then s
      else
        { s with
          served := s.served.set request { serving with outcome := some outcome } }.answer
            request serving.id outcome

inductive Event where
  | serve (id : Nat) (thrown : Option Thrown)
  | settle (request : Nat) (outcome : Except Thrown Unit)

def step (s : MutationServer) : Event -> MutationServer
  | Event.serve id thrown => s.serve id thrown
  | Event.settle request outcome => s.settle request outcome

def run (events : List Event) : MutationServer := events.foldl step new

/-- The messages posted for one request. -/
def repliesTo (s : MutationServer) (request : Nat) : List Reply :=
  s.posted.filter (fun reply => decide (reply.request = request))

/-- Exactly one response for every request whose operation has settled, under the id
of the request, and none before. -/
def Answers (s : MutationServer) : Prop :=
  forall (request : Nat) (serving : Serving), s.served[request]? = some serving ->
    (serving.outcome = none -> s.repliesTo request = []) ∧
      (forall outcome, serving.outcome = some outcome ->
        exists error, s.repliesTo request =
          [{ request := request, id := serving.id, error := error }])

/-- What has been posted for one request. -/
def Posted (s : MutationServer) (request : Nat) (serving : Serving) : Prop :=
  match serving.outcome with
  | none => s.repliesTo request = []
  | some outcome =>
      (Answerable outcome ∧ exists error, s.repliesTo request =
        [{ request := request, id := serving.id, error := error }]) ∨
        (¬ Answerable outcome ∧ s.repliesTo request = [])

structure Sound (s : MutationServer) : Prop where
  range : forall reply, reply ∈ s.posted -> reply.request < s.served.length
  posted : forall (request : Nat) (serving : Serving), s.served[request]? = some serving ->
    s.Posted request serving

/-- The end of an operation posts one message when it can, else nothing. -/
theorem answer_spec (s : MutationServer) (request id : Nat) (outcome : Except Thrown Unit) :
    (Answerable outcome ∧ exists error, s.answer request id outcome =
        { s with posted := s.posted ++ [{ request := request, id := id, error := error }] }) ∨
      (¬ Answerable outcome ∧ s.answer request id outcome = s) := by
  cases outcome with
  | ok value => exact Or.inl ⟨trivial, none, rfl⟩
  | error thrown =>
      have hposts : Posts (errorOf thrown) <-> Answerable (Except.error thrown) :=
        errorOf_posts thrown
      have hanswer : s.answer request id (Except.error thrown) =
          (errorOf thrown).elim s (fun record => s.reply request id (some record)) := by
        dsimp only [answer]
        cases errorOf thrown with
        | none => rfl
        | some record => rfl
      rw [← hposts, hanswer]
      cases errorOf thrown with
      | none =>
          refine Or.inr ⟨?_, rfl⟩
          intro hrecord
          rcases hrecord with ⟨fields, hfields, _⟩
          cases hfields
      | some record =>
          show _ ∨ (_ ∧ s.reply request id (some record) = s)
          have hreply : s.reply request id (some record) =
              if clones record then
                { s with posted :=
                    s.posted ++ [{ request := request, id := id, error := some record }] }
              else s := rfl
          cases hclones : clones record with
          | true =>
              refine Or.inl ⟨⟨record, rfl, hclones⟩, some record, ?_⟩
              exact hreply.trans (if_pos hclones)
          | false =>
              refine Or.inr ⟨?_, hreply.trans (if_neg (by rw [hclones]; exact nofun))⟩
              intro hrecord
              rcases hrecord with ⟨fields, hfields, hcloned⟩
              rw [← Option.some.inj hfields, hclones] at hcloned
              cases hcloned

theorem repliesTo_append (s s' : MutationServer) {reply : Reply}
    (h : s'.posted = s.posted ++ [reply]) (request : Nat) :
    s'.repliesTo request =
      if reply.request = request then s.repliesTo request ++ [reply] else s.repliesTo request := by
  unfold repliesTo
  rw [h, List.filter_append]
  by_cases hrequest : reply.request = request
  · rw [if_pos hrequest, List.filter_singleton, decide_eq_true hrequest]
    rfl
  · rw [if_neg hrequest, List.filter_singleton, decide_eq_false hrequest]
    exact List.append_nil _

/-- The end of one operation keeps what was posted for the others. -/
theorem answer_sound (s : MutationServer) {request : Nat} (serving : Serving)
    {outcome : Except Thrown Unit}
    (hrange : forall reply, reply ∈ s.posted -> reply.request < s.served.length)
    (hothers : forall (other : Nat) (served : Serving), s.served[other]? = some served ->
      other ≠ request -> s.Posted other served)
    (hget : s.served[request]? = some serving) (houtcome : serving.outcome = some outcome)
    (hnone : s.repliesTo request = []) :
    (s.answer request serving.id outcome).Sound := by
  have hself : forall served, s.served[request]? = some served -> served = serving := by
    intro served hserved
    rw [hget] at hserved
    exact (Option.some.inj hserved).symm
  rcases s.answer_spec request serving.id outcome with ⟨hcan, error, heq⟩ | ⟨hcannot, heq⟩
  · have hkept : forall other, other ≠ request ->
        (s.answer request serving.id outcome).repliesTo other = s.repliesTo other := by
      intro other hne
      rw [heq, repliesTo_append s _ rfl, if_neg (fun h => hne h.symm)]
    constructor
    · intro reply hreply
      rw [heq] at hreply ⊢
      rcases List.mem_append.mp hreply with hmem | hmem
      · exact hrange reply hmem
      · rw [List.mem_singleton.mp hmem]
        exact (List.getElem?_eq_some_iff.mp hget).1
    · intro other served hother
      rw [heq] at hother
      by_cases hne : other = request
      · rw [hne] at hother ⊢
        rw [hself served hother]
        unfold Posted
        rw [houtcome, heq, repliesTo_append s _ rfl, if_pos rfl, hnone]
        exact Or.inl ⟨hcan, error, rfl⟩
      · have hold := hothers other served hother hne
        unfold Posted at hold ⊢
        rw [hkept other hne]
        exact hold
  · rw [heq]
    constructor
    · exact hrange
    · intro other served hother
      by_cases hne : other = request
      · rw [hne] at hother ⊢
        rw [hself served hother]
        unfold Posted
        rw [houtcome]
        exact Or.inr ⟨hcannot, hnone⟩
      · exact hothers other served hother hne

theorem Sound.new : new.Sound :=
  { range := fun reply hreply => by cases hreply
    posted := fun request serving hget => by cases hget }

/-- Nothing has been posted for a request that has not arrived. -/
theorem Sound.unanswered {s : MutationServer} (h : s.Sound) {request : Nat}
    (hrequest : s.served.length ≤ request) : s.repliesTo request = [] := by
  apply List.filter_eq_nil_iff.mpr
  intro reply hreply heq
  have hlt := h.range reply hreply
  rw [of_decide_eq_true heq] at hlt
  exact absurd hlt (Nat.not_lt.mpr hrequest)

theorem Sound.serve {s : MutationServer} (h : s.Sound) (id : Nat) (thrown : Option Thrown) :
    (s.serve id thrown).Sound := by
  have hlast : s.repliesTo s.served.length = [] := h.unanswered (Nat.le_refl _)
  have hold : forall (serving : Serving) (other : Nat) (served : Serving),
      (s.served ++ [serving])[other]? = some served -> other ≠ s.served.length ->
      s.Posted other served := by
    intro serving other served hget hne
    rcases Nat.lt_trichotomy other s.served.length with hlt | heq | hgt
    · rw [List.getElem?_append_left hlt] at hget
      exact h.posted other served hget
    · exact absurd heq hne
    · have hlen : (s.served ++ [serving]).length ≤ other := by
        rw [List.length_append]
        exact hgt
      rw [List.getElem?_eq_none hlen] at hget
      cases hget
  have hrange : forall (serving : Serving) (reply : Reply), reply ∈ s.posted ->
      reply.request < (s.served ++ [serving]).length := by
    intro serving reply hreply
    rw [List.length_append]
    exact Nat.lt_succ_of_lt (h.range reply hreply)
  cases thrown with
  | none =>
      constructor
      · exact hrange _
      · intro other served hget
        by_cases hne : other = s.served.length
        · have hserved : served = { id := id, outcome := none } := by
            rw [hne] at hget
            exact (Option.some.inj (List.getElem?_concat_length.symm.trans hget)).symm
          rw [hserved, hne]
          exact hlast
        · exact hold _ other served hget hne
  | some thrown =>
      show (MutationServer.answer
        { s with served := s.served ++ [{ id := id, outcome := some (Except.error thrown) }] }
        s.served.length id (Except.error thrown)).Sound
      apply answer_sound
        { s with served := s.served ++ [{ id := id, outcome := some (Except.error thrown) }] }
        { id := id, outcome := some (Except.error thrown) }
      · exact hrange _
      · exact hold _
      · exact List.getElem?_concat_length
      · rfl
      · exact hlast

theorem Sound.settle {s : MutationServer} (h : s.Sound) (request : Nat)
    (outcome : Except Thrown Unit) : (s.settle request outcome).Sound := by
  unfold MutationServer.settle
  cases hget : s.served[request]? with
  | none => exact h
  | some serving =>
      dsimp only
      cases hdone : serving.outcome with
      | some earlier => exact h
      | none =>
          have hnone : s.repliesTo request = [] := by
            have hposted := h.posted request serving hget
            unfold Posted at hposted
            rw [hdone] at hposted
            exact hposted
          have hlt := (List.getElem?_eq_some_iff.mp hget).1
          apply answer_sound
            { s with served := s.served.set request { serving with outcome := some outcome } }
            { serving with outcome := some outcome }
          · intro reply hreply
            rw [List.length_set]
            exact h.range reply hreply
          · intro other served hother hne
            rw [List.getElem?_set_ne (fun heq => hne heq.symm)] at hother
            exact h.posted other served hother
          · exact List.getElem?_set_self hlt
          · rfl
          · exact hnone

theorem Sound.run (events : List Event) : (run events).Sound := by
  have hfold : forall s : MutationServer, s.Sound -> (events.foldl step s).Sound := by
    induction events with
    | nil => exact fun s h => h
    | cons event rest ih =>
        intro s h
        apply ih
        cases event with
        | serve id thrown => exact h.serve id thrown
        | settle request outcome => exact h.settle request outcome
  exact hfold MutationServer.new Sound.new

/-- Every request is answered exactly once if and only if every operation settles with
something {lit}`#serveMutation` can answer. -/
theorem Sound.answers_iff {s : MutationServer} (h : s.Sound) :
    s.Answers <-> forall serving, serving ∈ s.served ->
      forall outcome, serving.outcome = some outcome -> Answerable outcome := by
  constructor
  · intro hanswers serving hserving outcome houtcome
    rcases List.mem_iff_getElem?.mp hserving with ⟨request, hget⟩
    rcases (hanswers request serving hget).2 outcome houtcome with ⟨error, hreplies⟩
    have hposted := h.posted request serving hget
    unfold Posted at hposted
    rw [houtcome] at hposted
    rcases hposted with ⟨hcan, _⟩ | ⟨_, hnone⟩
    · exact hcan
    · rw [hreplies] at hnone
      cases hnone
  · intro hall request serving hget
    have hposted := h.posted request serving hget
    unfold Posted at hposted
    constructor
    · intro hrunning
      rw [hrunning] at hposted
      exact hposted
    · intro outcome houtcome
      rw [houtcome] at hposted
      rcases hposted with ⟨_, hreplies⟩ | ⟨hcannot, _⟩
      · exact hreplies
      · exact absurd (hall serving (List.mem_of_getElem? hget) outcome houtcome) hcannot

end MutationServer

end SharedMemoryFs
