import Mathlib.Logic.Basic

/-!
# Asynchronous functions

An asynchronous function over a shared state runs without interruption from one
await to the next.  At an await it asks a question, and other code runs before
the answer resumes it.  A contract says what its code between two awaits may do
to the state, what others may do meanwhile, and which answers it relies on.
-/

namespace SharedMemoryFs.Foundation

variable {query : Type} {reply : query -> Type} {sigma epsilon alpha beta gamma : Type}

inductive Async (reply : query -> Type) (sigma epsilon alpha : Type) where
  | done (value : alpha)
  | throw (error : epsilon)
  | get (next : sigma -> Async reply sigma epsilon alpha)
  | set (state : sigma) (next : Async reply sigma epsilon alpha)
  | await (question : query) (next : reply question -> Async reply sigma epsilon alpha)

/-- Where a run of an asynchronous function stops. -/
inductive Paused (reply : query -> Type) (sigma epsilon alpha : Type) where
  | returned (value : alpha)
  | threw (error : epsilon)
  | waiting (question : query) (next : reply question -> Async reply sigma epsilon alpha)

namespace Async

/-- Run to the next await, or to the end. -/
def run : Async reply sigma epsilon alpha -> sigma -> sigma × Paused reply sigma epsilon alpha
  | done value, s => (s, Paused.returned value)
  | throw error, s => (s, Paused.threw error)
  | get next, s => run (next s) s
  | set state next, _ => run next state
  | await question next, s => (s, Paused.waiting question next)

def bind (f : alpha -> Async reply sigma epsilon beta) :
    Async reply sigma epsilon alpha -> Async reply sigma epsilon beta
  | done value => f value
  | throw error => throw error
  | get next => get (fun s => bind f (next s))
  | set state next => set state (bind f next)
  | await question next => await question (fun answer => bind f (next answer))

/-- {lit}`try ... catch`. -/
def recover (f : epsilon -> Async reply sigma epsilon alpha) :
    Async reply sigma epsilon alpha -> Async reply sigma epsilon alpha
  | done value => done value
  | throw error => f error
  | get next => get (fun s => recover f (next s))
  | set state next => set state (recover f next)
  | await question next => await question (fun answer => recover f (next answer))

instance : Monad (Async reply sigma epsilon) where
  pure := done
  bind x f := bind f x

def read : Async reply sigma epsilon sigma := get done

def modify (f : sigma -> sigma) : Async reply sigma epsilon Unit :=
  get (fun s => set (f s) (done ()))

def ask (question : query) : Async reply sigma epsilon (reply question) :=
  await question done

def ofExcept : Except epsilon alpha -> Async reply sigma epsilon alpha
  | Except.ok value => done value
  | Except.error error => throw error

/-- Await the end of another function: whether it returned or threw, others may
run before its outcome, here under {lit}`turn`, is seen. -/
def settle (turn : query) (x : Async reply sigma epsilon alpha) :
    Async reply sigma epsilon alpha :=
  bind (fun value => await turn (fun _ => done value))
    (recover (fun error => await turn (fun _ => throw error)) x)

/-- A function may return a value, whatever it is answered and whatever it reads. -/
inductive Returns : Async reply sigma epsilon alpha -> alpha -> Prop where
  | done (value : alpha) : Returns (done value) value
  | get (next : sigma -> Async reply sigma epsilon alpha) (s : sigma) (value : alpha) :
      Returns (next s) value -> Returns (get next) value
  | set (state : sigma) (next : Async reply sigma epsilon alpha) (value : alpha) :
      Returns next value -> Returns (set state next) value
  | await (question : query) (next : reply question -> Async reply sigma epsilon alpha)
      (answer : reply question) (value : alpha) :
      Returns (next answer) value -> Returns (await question next) value

theorem returns_bind {x : Async reply sigma epsilon alpha}
    {f : alpha -> Async reply sigma epsilon beta} {value : beta} (h : Returns (bind f x) value) :
    exists a, Returns x a ∧ Returns (f a) value := by
  induction x with
  | done a => exact ⟨a, Returns.done a, h⟩
  | throw error => cases h
  | get next ih =>
      cases h with
      | get _ s _ hnext =>
          rcases ih s hnext with ⟨a, ha, hf⟩
          exact ⟨a, Returns.get next s a ha, hf⟩
  | set state next ih =>
      cases h with
      | set _ _ _ hnext =>
          rcases ih hnext with ⟨a, ha, hf⟩
          exact ⟨a, Returns.set state next a ha, hf⟩
  | await question next ih =>
      cases h with
      | await _ _ answer _ hnext =>
          rcases ih answer hnext with ⟨a, ha, hf⟩
          exact ⟨a, Returns.await question next answer a ha, hf⟩

/-!
# Contracts
-/

/-- {lit}`guar` bounds what a function does between two awaits, {lit}`rely` what
others do meanwhile, and {lit}`answers` says which answers are given in which
states. -/
structure Contract (reply : query -> Type) (sigma : Type) where
  guar : sigma -> sigma -> Prop
  rely : sigma -> sigma -> Prop
  answers : (question : query) -> reply question -> sigma -> Prop

variable (c : Contract reply sigma)

/-- A function that has come from {lit}`s0`, the state it was last resumed in, to
{lit}`s` keeps its contract from there on, and ends with {lit}`post` or, when it
throws, with {lit}`fail`. -/
def Meets (post : sigma -> sigma -> alpha -> Prop) (fail : sigma -> sigma -> epsilon -> Prop) :
    Async reply sigma epsilon alpha -> sigma -> sigma -> Prop
  | done value, s0, s => post s0 s value
  | throw error, s0, s => fail s0 s error
  | get next, s0, s => Meets post fail (next s) s0 s
  | set state next, s0, _ => Meets post fail next s0 state
  | await question next, s0, s =>
      c.guar s0 s ∧
        forall s' answer, c.rely s s' -> c.answers question answer s' ->
          Meets post fail (next answer) s' s'

variable {c}

theorem meets_mono {post post' : sigma -> sigma -> alpha -> Prop}
    {fail fail' : sigma -> sigma -> epsilon -> Prop} {x : Async reply sigma epsilon alpha}
    {s0 s : sigma} (h : Meets c post fail x s0 s)
    (hpost : forall s0 s value, post s0 s value -> post' s0 s value)
    (hfail : forall s0 s error, fail s0 s error -> fail' s0 s error) :
    Meets c post' fail' x s0 s := by
  induction x generalizing s0 s with
  | done value => exact hpost _ _ _ h
  | throw error => exact hfail _ _ _ h
  | get next ih => exact ih s h
  | set state next ih => exact ih h
  | await question next ih =>
      constructor
      · exact h.1
      · intro s' answer hrely hanswer
        exact ih answer (h.2 s' answer hrely hanswer)

theorem meets_bind {post : sigma -> sigma -> beta -> Prop}
    {mid : sigma -> sigma -> alpha -> Prop} {fail : sigma -> sigma -> epsilon -> Prop}
    {x : Async reply sigma epsilon alpha} {f : alpha -> Async reply sigma epsilon beta}
    {s0 s : sigma} (h : Meets c mid fail x s0 s)
    (hf : forall s0 s value, mid s0 s value -> Meets c post fail (f value) s0 s) :
    Meets c post fail (bind f x) s0 s := by
  induction x generalizing s0 s with
  | done value => exact hf _ _ _ h
  | throw error => exact h
  | get next ih => exact ih s h
  | set state next ih => exact ih h
  | await question next ih =>
      constructor
      · exact h.1
      · intro s' answer hrely hanswer
        exact ih answer (h.2 s' answer hrely hanswer)

theorem meets_recover {post : sigma -> sigma -> alpha -> Prop}
    {mid fail : sigma -> sigma -> epsilon -> Prop}
    {x : Async reply sigma epsilon alpha} {f : epsilon -> Async reply sigma epsilon alpha}
    {s0 s : sigma} (h : Meets c post mid x s0 s)
    (hf : forall s0 s error, mid s0 s error -> Meets c post fail (f error) s0 s) :
    Meets c post fail (recover f x) s0 s := by
  induction x generalizing s0 s with
  | done value => exact h
  | throw error => exact hf _ _ _ h
  | get next ih => exact ih s h
  | set state next ih => exact ih h
  | await question next ih =>
      constructor
      · exact h.1
      · intro s' answer hrely hanswer
        exact ih answer (h.2 s' answer hrely hanswer)

theorem meets_settle {turn : query} {post mid : sigma -> sigma -> alpha -> Prop}
    {fail mid' : sigma -> sigma -> epsilon -> Prop} {x : Async reply sigma epsilon alpha}
    {s0 s : sigma} (h : Meets c mid mid' x s0 s)
    (hpost : forall s0 s value, mid s0 s value ->
      c.guar s0 s ∧ forall s', c.rely s s' -> post s' s' value)
    (hfail : forall s0 s error, mid' s0 s error ->
      c.guar s0 s ∧ forall s', c.rely s s' -> fail s' s' error) :
    Meets c post fail (settle turn x) s0 s := by
  have hrecovered : Meets c mid fail
      (recover (fun error => await turn (fun _ => throw error)) x) s0 s := by
    apply meets_recover h
    intro s0 s error hmid
    constructor
    · exact (hfail s0 s error hmid).1
    · intro s' _ hrely _
      exact (hfail s0 s error hmid).2 s' hrely
  apply meets_bind hrecovered
  intro s0 s value hmid
  constructor
  · exact (hpost s0 s value hmid).1
  · intro s' _ hrely _
    exact (hpost s0 s value hmid).2 s' hrely

/-- What a contract says of the state a run stops in. -/
theorem meets_run {post : sigma -> sigma -> alpha -> Prop}
    {fail : sigma -> sigma -> epsilon -> Prop} {x : Async reply sigma epsilon alpha}
    {s0 s : sigma} (h : Meets c post fail x s0 s) :
    match run x s with
    | (s', Paused.returned value) => post s0 s' value
    | (s', Paused.threw error) => fail s0 s' error
    | (s', Paused.waiting question next) =>
        c.guar s0 s' ∧
          forall s'' answer, c.rely s' s'' -> c.answers question answer s'' ->
            Meets c post fail (next answer) s'' s'' := by
  induction x generalizing s with
  | done value => exact h
  | throw error => exact h
  | get next ih => exact ih s h
  | set state next ih => exact ih h
  | await question next ih => exact h

/-!
# Triples

A triple fixes the form of the contract's postconditions: a function keeps its
guarantee at every await and at its end, and besides one assertion holds when it
returns and one when it throws.
-/

/-- The guarantee allows doing nothing, and one change after another. -/
structure Contract.Steady (c : Contract reply sigma) : Prop where
  refl : forall s, c.guar s s
  trans : forall s s' s'', c.guar s s' -> c.guar s' s'' -> c.guar s s''

/-- Functions that run side by side under one contract: what one of them may do is
among what the others expect. -/
structure Contract.Shared (c : Contract reply sigma) : Prop extends c.Steady where
  gives : forall s s', c.guar s s' -> c.rely s s'
  through : forall s s' s'', c.rely s s' -> c.rely s' s'' -> c.rely s s''

/-- What others do meanwhile does not touch it. -/
def Contract.Stable (c : Contract reply sigma) (p : sigma -> Prop) : Prop :=
  forall s s', p s -> c.rely s s' -> p s'

theorem Contract.stable_true (c : Contract reply sigma) : c.Stable (fun _ => True) :=
  fun _ _ _ _ => trivial

variable (c) in
/-- The contract of the rest of a function, resumed in {lit}`s0` and now in {lit}`s`. -/
def Ends (post : alpha -> sigma -> Prop) (fail : epsilon -> sigma -> Prop)
    (x : Async reply sigma epsilon alpha) (s0 s : sigma) : Prop :=
  Meets c (fun s0 s value => c.guar s0 s ∧ post value s)
    (fun s0 s error => c.guar s0 s ∧ fail error s) x s0 s

variable (c) in
def Triple (pre : sigma -> Prop) (x : Async reply sigma epsilon alpha)
    (post : alpha -> sigma -> Prop) (fail : epsilon -> sigma -> Prop) : Prop :=
  forall s0 s, c.guar s0 s -> pre s -> Ends c post fail x s0 s

section Rules

variable {pre pre' : sigma -> Prop} {post post' : alpha -> sigma -> Prop}
variable {fail fail' : epsilon -> sigma -> Prop}
variable {x : Async reply sigma epsilon alpha}

theorem triple_done {value : alpha} (h : forall s, pre s -> post value s) :
    Triple c pre (done value : Async reply sigma epsilon alpha) post fail :=
  fun _ s hguar hpre => ⟨hguar, h s hpre⟩

theorem triple_throw {error : epsilon} (h : forall s, pre s -> fail error s) :
    Triple c pre (throw error : Async reply sigma epsilon alpha) post fail :=
  fun _ s hguar hpre => ⟨hguar, h s hpre⟩

theorem triple_weaken (h : Triple c pre x post fail) (hpre : forall s, pre' s -> pre s)
    (hpost : forall value s, post value s -> post' value s)
    (hfail : forall error s, fail error s -> fail' error s) :
    Triple c pre' x post' fail' := by
  intro s0 s hguar hs
  apply meets_mono (h s0 s hguar (hpre s hs))
  · intro s0 s value hend
    exact ⟨hend.1, hpost value s hend.2⟩
  · intro s0 s error hend
    exact ⟨hend.1, hfail error s hend.2⟩

/-- A fact of no state is at hand from the start. -/
theorem triple_pure {q : Prop} (h : q -> Triple c pre x post fail) :
    Triple c (fun s => q ∧ pre s) x post fail :=
  fun s0 s hguar hs => h hs.1 s0 s hguar hs.2

theorem triple_bind {mid : beta -> sigma -> Prop} {y : Async reply sigma epsilon beta}
    {f : beta -> Async reply sigma epsilon alpha} (hy : Triple c pre y mid fail)
    (hf : forall value, Triple c (mid value) (f value) post fail) :
    Triple c pre (y >>= f) post fail := by
  intro s0 s hguar hs
  apply meets_bind (hy s0 s hguar hs)
  intro s0 s value hmid
  exact hf value s0 s hmid.1 hmid.2

theorem triple_ask (hc : c.Steady) (hpre : c.Stable pre) {question : query}
    {post : reply question -> sigma -> Prop}
    (h : forall answer s, pre s -> c.answers question answer s -> post answer s) :
    Triple c pre (ask question : Async reply sigma epsilon (reply question)) post fail := by
  intro s0 s hguar hs
  constructor
  · exact hguar
  · intro s' answer hrely hanswer
    exact ⟨hc.refl s', h answer s' (hpre s s' hs hrely) hanswer⟩

theorem triple_read {f : sigma -> Async reply sigma epsilon alpha}
    (hf : forall s, pre s -> Triple c (fun s' => s' = s) (f s) post fail) :
    Triple c pre (read >>= f) post fail :=
  fun s0 s hguar hs => hf s hs s0 s hguar rfl

theorem triple_modify (hc : c.Steady) {f : sigma -> sigma} {post : Unit -> sigma -> Prop}
    (hf : forall s, pre s -> c.guar s (f s) ∧ post () (f s)) :
    Triple c pre (modify f : Async reply sigma epsilon Unit) post fail := by
  intro s0 s hguar hs
  exact ⟨hc.trans s0 s _ hguar (hf s hs).1, (hf s hs).2⟩

theorem triple_set (hc : c.Steady) {state : sigma}
    (hs : forall s, pre s -> c.guar s state ∧ pre' state) (hx : Triple c pre' x post fail) :
    Triple c pre (set state x) post fail := by
  intro s0 s hguar hpre
  exact hx s0 state (hc.trans s0 s state hguar (hs s hpre).1) (hs s hpre).2

theorem triple_recover {f : epsilon -> Async reply sigma epsilon alpha}
    (hx : Triple c pre x post fail')
    (hf : forall error, Triple c (fail' error) (f error) post fail) :
    Triple c pre (recover f x) post fail := by
  intro s0 s hguar hs
  apply meets_recover (hx s0 s hguar hs)
  intro s0 s error hend
  exact hf error s0 s hend.1 hend.2

theorem triple_settle (hc : c.Steady) {turn : query} (hx : Triple c pre x post fail)
    (hpost : forall value, c.Stable (post value))
    (hfail : forall error, c.Stable (fail error)) :
    Triple c pre (settle turn x) post fail := by
  intro s0 s hguar hs
  apply meets_settle (hx s0 s hguar hs)
  · intro s0 s value hend
    constructor
    · exact hend.1
    · intro s' hrely
      exact ⟨hc.refl s', hpost value s s' hend.2 hrely⟩
  · intro s0 s error hend
    constructor
    · exact hend.1
    · intro s' hrely
      exact ⟨hc.refl s', hfail error s s' hend.2 hrely⟩

theorem ends_frame (hc : c.Shared) {inv : sigma -> Prop} (hinv : c.Stable inv)
    {s0 s1 s : sigma} (hs1 : inv s1) (hbefore : c.guar s0 s1) (h : Ends c post fail x s1 s) :
    Ends c (fun value s => post value s ∧ inv s) (fun error s => fail error s ∧ inv s) x s0 s := by
  induction x generalizing s0 s1 s with
  | done value =>
      exact ⟨hc.trans s0 s1 s hbefore h.1, h.2, hinv s1 s hs1 (hc.gives s1 s h.1)⟩
  | throw error =>
      exact ⟨hc.trans s0 s1 s hbefore h.1, h.2, hinv s1 s hs1 (hc.gives s1 s h.1)⟩
  | get next ih => exact ih s hs1 hbefore h
  | set state next ih => exact ih hs1 hbefore h
  | await question next ih =>
      constructor
      · exact hc.trans s0 s1 s hbefore h.1
      · intro s' answer hrely hanswer
        have hs : inv s := hinv s1 s hs1 (hc.gives s1 s h.1)
        exact ih answer (hinv s s' hs hrely) (hc.refl s') (h.2 s' answer hrely hanswer)

/-- An assertion nobody touches holds from beginning to end. -/
theorem triple_frame (hc : c.Shared) {inv : sigma -> Prop} (hinv : c.Stable inv)
    (h : Triple c pre x post fail) :
    Triple c (fun s => pre s ∧ inv s) x (fun value s => post value s ∧ inv s)
      (fun error s => fail error s ∧ inv s) := by
  intro s0 s hguar hs
  exact ends_frame hc hinv hs.2 hguar (h s s (hc.refl s) hs.1)

/-- A contract that promises more, or expects less. -/
theorem ends_mono {c c' : Contract reply sigma}
    (hguar : forall s s', c.guar s s' -> c'.guar s s')
    (hrely : forall s s', c'.rely s s' -> c.rely s s')
    (hanswers : forall question answer s, c'.answers question answer s ->
      c.answers question answer s) {s0 s : sigma} (h : Ends c post fail x s0 s) :
    Ends c' post fail x s0 s := by
  induction x generalizing s0 s with
  | done value => exact ⟨hguar s0 s h.1, h.2⟩
  | throw error => exact ⟨hguar s0 s h.1, h.2⟩
  | get next ih => exact ih s h
  | set state next ih => exact ih h
  | await question next ih =>
      constructor
      · exact hguar s0 s h.1
      · intro s' answer hs hanswer
        exact ih answer (h.2 s' answer (hrely s s' hs) (hanswers question answer s' hanswer))

/-- Where a run of a function with a triple stops. -/
theorem triple_run (hc : c.Steady) (h : Triple c pre x post fail) {s : sigma} (hs : pre s) :
    match run x s with
    | (s', Paused.returned value) => c.guar s s' ∧ post value s'
    | (s', Paused.threw error) => c.guar s s' ∧ fail error s'
    | (s', Paused.waiting question next) =>
        c.guar s s' ∧
          forall s'' answer, c.rely s' s'' -> c.answers question answer s'' ->
            Ends c post fail (next answer) s'' s'' :=
  meets_run (h s s (hc.refl s) hs)

end Rules

/-!
# How long a function runs
-/

/-- At most {lit}`n` awaits, whatever is answered. -/
def Within : Async reply sigma epsilon alpha -> Nat -> Prop
  | done _, _ => True
  | throw _, _ => True
  | get next, n => forall s, Within (next s) n
  | set _ next, n => Within next n
  | await _ next, n => exists m, m < n ∧ forall answer, Within (next answer) m

theorem within_mono {x : Async reply sigma epsilon alpha} {n n' : Nat} (h : Within x n)
    (hle : n ≤ n') : Within x n' := by
  induction x generalizing n n' with
  | done value => exact trivial
  | throw error => exact trivial
  | get next ih => exact fun s => ih s (h s) hle
  | set state next ih => exact ih h hle
  | await question next ih =>
      rcases h with ⟨m, hlt, hnext⟩
      exact ⟨m, Nat.lt_of_lt_of_le hlt hle, hnext⟩

theorem within_bind {x : Async reply sigma epsilon alpha}
    {f : alpha -> Async reply sigma epsilon beta} {n m : Nat} (hx : Within x n)
    (hf : forall value, Within (f value) m) : Within (bind f x) (n + m) := by
  induction x generalizing n with
  | done value => exact within_mono (hf value) (Nat.le_add_left m n)
  | throw error => exact trivial
  | get next ih => exact fun s => ih s (hx s)
  | set state next ih => exact ih hx
  | await question next ih =>
      rcases hx with ⟨k, hlt, hnext⟩
      exact ⟨k + m, Nat.add_lt_add_right hlt m, fun answer => ih answer (hnext answer)⟩

theorem within_recover {x : Async reply sigma epsilon alpha}
    {f : epsilon -> Async reply sigma epsilon alpha} {n m : Nat} (hx : Within x n)
    (hf : forall error, Within (f error) m) : Within (recover f x) (n + m) := by
  induction x generalizing n with
  | done value => exact trivial
  | throw error => exact within_mono (hf error) (Nat.le_add_left m n)
  | get next ih => exact fun s => ih s (hx s)
  | set state next ih => exact ih hx
  | await question next ih =>
      rcases hx with ⟨k, hlt, hnext⟩
      exact ⟨k + m, Nat.add_lt_add_right hlt m, fun answer => ih answer (hnext answer)⟩

theorem within_ask (question : query) :
    Within (ask question : Async reply sigma epsilon (reply question)) 1 :=
  ⟨0, Nat.zero_lt_one, fun _ => trivial⟩

/-- One await more: for a result or for an error, never for both. -/
theorem within_settle {turn : query} {x : Async reply sigma epsilon alpha} {n : Nat}
    (hx : Within x n) : Within (settle turn x) (n + 1) := by
  induction x generalizing n with
  | done value => exact ⟨n, Nat.lt_succ_self n, fun _ => trivial⟩
  | throw error => exact ⟨n, Nat.lt_succ_self n, fun _ => trivial⟩
  | get next ih => exact fun s => ih s (hx s)
  | set state next ih => exact ih hx
  | await question next ih =>
      rcases hx with ⟨k, hlt, hnext⟩
      exact ⟨k + 1, Nat.succ_lt_succ hlt, fun answer => ih answer (hnext answer)⟩

/-- Every resume brings a function closer to its end. -/
theorem within_run {x : Async reply sigma epsilon alpha} {n : Nat} (h : Within x n)
    (s : sigma) {s' : sigma} {question : query}
    {next : reply question -> Async reply sigma epsilon alpha}
    (hrun : run x s = (s', Paused.waiting question next)) :
    exists m, m < n ∧ forall answer, Within (next answer) m := by
  induction x generalizing s with
  | done value => cases hrun
  | throw error => cases hrun
  | get following ih => exact ih s (h s) s hrun
  | set state following ih => exact ih h state hrun
  | await asked following ih =>
      cases hrun
      exact h

end Async
end SharedMemoryFs.Foundation
