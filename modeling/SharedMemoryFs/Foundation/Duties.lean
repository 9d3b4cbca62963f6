import SharedMemoryFs.Foundation.Async

/-!
# Duties

Of many functions that run side by side, one takes a duty upon itself and has to have
done it when it ends, however it ends and whatever the others do meanwhile.  Once none
of them is running, a duty that was taken is done.
-/

namespace SharedMemoryFs.Foundation.Async

variable {query : Type} {reply : query -> Type} {sigma epsilon alpha beta : Type}

/-- {lit}`taken` says that somebody took the duty, {lit}`met` that it is done. -/
structure Duty (sigma : Type) where
  taken : sigma -> Prop
  met : sigma -> Prop

/-- Whoever took the duty since {lit}`s0` has done it. -/
def Duty.Settled (duty : Duty sigma) (s0 s : sigma) : Prop :=
  duty.taken s -> duty.taken s0 ∨ duty.met s

theorem Duty.Settled.refl (duty : Duty sigma) (s : sigma) : duty.Settled s s := Or.inl

theorem Duty.Settled.trans {duty : Duty sigma} {s s' s'' : sigma} (h : duty.Settled s s')
    (hmet : duty.met s' -> duty.met s'') (h' : duty.Settled s' s'') : duty.Settled s s'' := by
  intro htaken
  rcases h' htaken with hearlier | hdone
  · exact (h hearlier).imp_right hmet
  · exact Or.inr hdone

variable (c : Contract reply sigma) (duty : Duty sigma)

/-- A function that has come from {lit}`s0` to {lit}`s` keeps its contract from there on.
Where it takes the duty and then awaits, it does it before it ends. -/
def Serves (post : alpha -> sigma -> Prop) (fail : epsilon -> sigma -> Prop) :
    Async reply sigma epsilon alpha -> sigma -> sigma -> Prop
  | done value, s0, s => c.guar s0 s ∧ duty.Settled s0 s ∧ post value s
  | throw error, s0, s => c.guar s0 s ∧ duty.Settled s0 s ∧ fail error s
  | get next, s0, s => Serves post fail (next s) s0 s
  | set state next, s0, _ => Serves post fail next s0 state
  | await question next, s0, s =>
      c.guar s0 s ∧
        forall s' answer, c.rely s s' -> c.answers question answer s' ->
          Serves post fail (next answer) s' s' ∧
            (duty.taken s -> duty.taken s0 ∨
              Ends c (fun value s => post value s ∧ duty.met s)
                (fun error s => fail error s ∧ duty.met s) (next answer) s' s')

/-- The triple of a function that keeps to its duties. -/
def Serve (pre : sigma -> Prop) (x : Async reply sigma epsilon alpha)
    (post : alpha -> sigma -> Prop) (fail : epsilon -> sigma -> Prop) : Prop :=
  forall s0 s, c.guar s0 s -> duty.Settled s0 s -> pre s -> Serves c duty post fail x s0 s

/-- The contract of a function that never takes the duty. -/
def Contract.untaken : Contract reply sigma :=
  { c with guar := fun s s' => c.guar s s' ∧ (duty.taken s' -> duty.taken s) }

section Rules

variable {c duty}
variable {pre pre' : sigma -> Prop} {post post' : alpha -> sigma -> Prop}
variable {fail fail' : epsilon -> sigma -> Prop}
variable {x : Async reply sigma epsilon alpha}

theorem serves_ends {s0 s : sigma} (h : Serves c duty post fail x s0 s) :
    Ends c post fail x s0 s := by
  induction x generalizing s0 s with
  | done value => exact ⟨h.1, h.2.2⟩
  | throw error => exact ⟨h.1, h.2.2⟩
  | get next ih => exact ih s h
  | set state next ih => exact ih h
  | await question next ih =>
      constructor
      · exact h.1
      · intro s' answer hrely hanswer
        exact ih answer (h.2 s' answer hrely hanswer).1

/-- Whoever does the duty in the end keeps to it. -/
theorem serves_of_met {s0 s : sigma}
    (h : Ends c (fun value s => post value s ∧ duty.met s)
      (fun error s => fail error s ∧ duty.met s) x s0 s) : Serves c duty post fail x s0 s := by
  induction x generalizing s0 s with
  | done value => exact ⟨h.1, fun _ => Or.inr h.2.2, h.2.1⟩
  | throw error => exact ⟨h.1, fun _ => Or.inr h.2.2, h.2.1⟩
  | get next ih => exact ih s h
  | set state next ih => exact ih h
  | await question next ih =>
      constructor
      · exact h.1
      · intro s' answer hrely hanswer
        have hrest := h.2 s' answer hrely hanswer
        exact ⟨ih answer hrest, fun _ => Or.inr hrest⟩

theorem serve_done {value : alpha} (h : forall s, pre s -> post value s) :
    Serve c duty pre (done value : Async reply sigma epsilon alpha) post fail :=
  fun _ s hguar hsettled hpre => ⟨hguar, hsettled, h s hpre⟩

theorem serve_throw {error : epsilon} (h : forall s, pre s -> fail error s) :
    Serve c duty pre (throw error : Async reply sigma epsilon alpha) post fail :=
  fun _ s hguar hsettled hpre => ⟨hguar, hsettled, h s hpre⟩

theorem serves_mono {s0 s : sigma} (h : Serves c duty post fail x s0 s)
    (hpost : forall value s, post value s -> post' value s)
    (hfail : forall error s, fail error s -> fail' error s) :
    Serves c duty post' fail' x s0 s := by
  induction x generalizing s0 s with
  | done value => exact ⟨h.1, h.2.1, hpost value s h.2.2⟩
  | throw error => exact ⟨h.1, h.2.1, hfail error s h.2.2⟩
  | get next ih => exact ih s h
  | set state next ih => exact ih h
  | await question next ih =>
      constructor
      · exact h.1
      · intro s' answer hrely hanswer
        rcases h.2 s' answer hrely hanswer with ⟨hrest, hduty⟩
        constructor
        · exact ih answer hrest
        · intro htaken
          apply (hduty htaken).imp_right
          intro hends
          apply meets_mono hends
          · intro s0 s value hend
            exact ⟨hend.1, hpost value s hend.2.1, hend.2.2⟩
          · intro s0 s error hend
            exact ⟨hend.1, hfail error s hend.2.1, hend.2.2⟩

theorem serve_weaken (h : Serve c duty pre x post fail) (hpre : forall s, pre' s -> pre s)
    (hpost : forall value s, post value s -> post' value s)
    (hfail : forall error s, fail error s -> fail' error s) :
    Serve c duty pre' x post' fail' :=
  fun s0 s hguar hsettled hs => serves_mono (h s0 s hguar hsettled (hpre s hs)) hpost hfail

theorem serve_read {f : sigma -> Async reply sigma epsilon alpha}
    (hf : forall s, pre s -> Serve c duty (fun s' => s' = s) (f s) post fail) :
    Serve c duty pre (read >>= f) post fail :=
  fun s0 s hguar hsettled hs => hf s hs s0 s hguar hsettled rfl

variable (hc : c.Shared) (hmet : c.Stable duty.met)
include hc hmet

/-- From where the duty is done it stays so. -/
theorem serve_met (h : Serve c duty pre x post fail) {s0 s : sigma} (hguar : c.guar s0 s)
    (hs : pre s) (hdone : duty.met s) :
    Ends c (fun value s => post value s ∧ duty.met s)
      (fun error s => fail error s ∧ duty.met s) x s0 s :=
  ends_frame hc hmet hdone hguar
    (serves_ends (h s s (hc.refl s) (Duty.Settled.refl duty s) hs))

/-- An assertion nobody touches holds from beginning to end. -/
theorem serve_frame {inv : sigma -> Prop} (hinv : c.Stable inv)
    (h : Serve c duty pre x post fail) :
    Serve c duty (fun s => pre s ∧ inv s) x (fun value s => post value s ∧ inv s)
      (fun error s => fail error s ∧ inv s) := by
  have hframed : forall (z : Async reply sigma epsilon alpha) s0 s1 s, c.guar s0 s1 ->
      duty.Settled s0 s1 -> inv s1 -> Serves c duty post fail z s1 s ->
      Serves c duty (fun value s => post value s ∧ inv s) (fun error s => fail error s ∧ inv s)
        z s0 s := by
    intro z
    induction z with
    | done value =>
        intro s0 s1 s hbefore hsettled hs1 hserves
        rcases hserves with ⟨hguar, hrest, hpost⟩
        exact ⟨hc.trans s0 s1 s hbefore hguar, hsettled.trans (hmet s1 s · (hc.gives s1 s hguar)) hrest,
          hpost, hinv s1 s hs1 (hc.gives s1 s hguar)⟩
    | throw error =>
        intro s0 s1 s hbefore hsettled hs1 hserves
        rcases hserves with ⟨hguar, hrest, hfail⟩
        exact ⟨hc.trans s0 s1 s hbefore hguar, hsettled.trans (hmet s1 s · (hc.gives s1 s hguar)) hrest,
          hfail, hinv s1 s hs1 (hc.gives s1 s hguar)⟩
    | get next ih => exact fun s0 s1 s hbefore hsettled hs1 h => ih s s0 s1 s hbefore hsettled hs1 h
    | set state next ih =>
        exact fun s0 s1 s hbefore hsettled hs1 h => ih s0 s1 state hbefore hsettled hs1 h
    | await question next ih =>
        intro s0 s1 s hbefore hsettled hs1 hserves
        rcases hserves with ⟨hguar, hrest⟩
        have hs : inv s := hinv s1 s hs1 (hc.gives s1 s hguar)
        constructor
        · exact hc.trans s0 s1 s hbefore hguar
        · intro s' answer hrely hanswer
          rcases hrest s' answer hrely hanswer with ⟨hnext, hduty⟩
          have hs' : inv s' := hinv s s' hs hrely
          have hrefl := hc.refl s'
          constructor
          · exact ih answer s' s' s' hrefl (Duty.Settled.refl duty s') hs' hnext
          · have hreframe : forall {post : alpha -> sigma -> Prop} {fail : epsilon -> sigma -> Prop},
                Ends c (fun value s => post value s ∧ duty.met s)
                  (fun error s => fail error s ∧ duty.met s) (next answer) s' s' ->
                Ends c (fun value s => (post value s ∧ inv s) ∧ duty.met s)
                  (fun error s => (fail error s ∧ inv s) ∧ duty.met s) (next answer) s' s' := by
              intro post fail hends
              apply meets_mono (ends_frame hc hinv hs' hrefl hends)
              · intro s0 s value hend
                exact ⟨hend.1, ⟨hend.2.1.1, hend.2.2⟩, hend.2.1.2⟩
              · intro s0 s error hend
                exact ⟨hend.1, ⟨hend.2.1.1, hend.2.2⟩, hend.2.1.2⟩
            intro htaken
            rcases hduty htaken with hearlier | hends
            · rcases hsettled hearlier with hbegun | hdone
              · exact Or.inl hbegun
              · have hstill := hmet s s' (hmet s1 s hdone (hc.gives s1 s hguar)) hrely
                exact Or.inr (hreframe (ends_frame hc hmet hstill hrefl (serves_ends hnext)))
            · exact Or.inr (hreframe hends)
  exact fun s0 s hguar hsettled hs => hframed x s0 s s hguar hsettled hs.2
    (h s s (hc.refl s) (Duty.Settled.refl duty s) hs.1)

theorem serve_bind {mid : beta -> sigma -> Prop} {y : Async reply sigma epsilon beta}
    {f : beta -> Async reply sigma epsilon alpha} (hy : Serve c duty pre y mid fail)
    (hf : forall value, Serve c duty (mid value) (f value) post fail) :
    Serve c duty pre (y >>= f) post fail := by
  have hbound : forall (z : Async reply sigma epsilon beta) s0 s, Serves c duty mid fail z s0 s ->
      Serves c duty post fail (bind f z) s0 s := by
    intro z
    induction z with
    | done value => exact fun s0 s h => hf value s0 s h.1 h.2.1 h.2.2
    | throw error => exact fun s0 s h => h
    | get next ih => exact fun s0 s h => ih s s0 s h
    | set state next ih => exact fun s0 s h => ih s0 state h
    | await question next ih =>
        intro s0 s h
        constructor
        · exact h.1
        · intro s' answer hrely hanswer
          rcases h.2 s' answer hrely hanswer with ⟨hrest, hduty⟩
          constructor
          · exact ih answer s' s' hrest
          · intro htaken
            apply (hduty htaken).imp_right
            intro hends
            apply meets_bind hends
            intro s0 s value hmid
            exact serve_met hc hmet (hf value) hmid.1 hmid.2.1 hmid.2.2
  exact fun s0 s hguar hsettled hs => hbound y s0 s (hy s0 s hguar hsettled hs)

theorem serve_recover {f : epsilon -> Async reply sigma epsilon alpha}
    (hx : Serve c duty pre x post fail')
    (hf : forall error, Serve c duty (fail' error) (f error) post fail) :
    Serve c duty pre (recover f x) post fail := by
  have hbound : forall (z : Async reply sigma epsilon alpha) s0 s,
      Serves c duty post fail' z s0 s -> Serves c duty post fail (recover f z) s0 s := by
    intro z
    induction z with
    | done value => exact fun s0 s h => h
    | throw error => exact fun s0 s h => hf error s0 s h.1 h.2.1 h.2.2
    | get next ih => exact fun s0 s h => ih s s0 s h
    | set state next ih => exact fun s0 s h => ih s0 state h
    | await question next ih =>
        intro s0 s h
        constructor
        · exact h.1
        · intro s' answer hrely hanswer
          rcases h.2 s' answer hrely hanswer with ⟨hrest, hduty⟩
          constructor
          · exact ih answer s' s' hrest
          · intro htaken
            apply (hduty htaken).imp_right
            intro hends
            apply meets_recover hends
            intro s0 s error hmid
            exact serve_met hc hmet (hf error) hmid.1 hmid.2.1 hmid.2.2
  exact fun s0 s hguar hsettled hs => hbound x s0 s (hx s0 s hguar hsettled hs)

/-- An await changes nothing. -/
theorem serve_await {question : query} {next : reply question -> Async reply sigma epsilon alpha}
    (hpre : c.Stable pre)
    (hnext : forall answer s, c.answers question answer s ->
      Serve c duty (fun s' => s' = s ∧ pre s') (next answer) post fail) :
    Serve c duty pre (await question next) post fail := by
  intro s0 s hguar hsettled hs
  constructor
  · exact hguar
  · intro s' answer hrely hanswer
    have hrest := hnext answer s' hanswer
    have hs' : s' = s' ∧ pre s' := ⟨rfl, hpre s s' hs hrely⟩
    constructor
    · exact hrest s' s' (hc.refl s') (Duty.Settled.refl duty s') hs'
    · intro htaken
      apply (hsettled htaken).imp_right
      intro hdone
      exact serve_met hc hmet hrest (hc.refl s') hs' (hmet s s' hdone hrely)

theorem serve_ask {question : query} {f : reply question -> Async reply sigma epsilon alpha}
    (hpre : c.Stable pre)
    (hf : forall answer s, c.answers question answer s ->
      Serve c duty (fun s' => s' = s ∧ pre s') (f answer) post fail) :
    Serve c duty pre (ask question >>= f) post fail :=
  serve_await hc hmet hpre hf

theorem serve_settle {turn : query} (hx : Serve c duty pre x post fail)
    (hpost : forall value, c.Stable (post value))
    (hfail : forall error, c.Stable (fail error)) :
    Serve c duty pre (settle turn x) post fail := by
  have hrecovered : Serve c duty pre (recover (fun error => await turn (fun _ => throw error)) x)
      post fail := by
    apply serve_recover hc hmet hx
    intro error
    exact serve_await hc hmet (hfail error) (fun _ _ _ => serve_throw (fun _ h => h.2))
  · apply serve_bind hc hmet hrecovered
    intro value
    exact serve_await hc hmet (hpost value) (fun _ _ _ => serve_done (fun _ h => h.2))

/-- A function that never takes the duty keeps to it. -/
theorem serve_of_untaken (h : forall s, pre s -> Ends (c.untaken duty) post fail x s s) :
    Serve c duty pre x post fail := by
  have hkept : forall (z : Async reply sigma epsilon alpha) s0 s1 s, c.guar s0 s1 ->
      duty.Settled s0 s1 -> Ends (c.untaken duty) post fail z s1 s ->
      Serves c duty post fail z s0 s := by
    intro z
    induction z with
    | done value =>
        intro s0 s1 s hbefore hsettled hends
        rcases hends with ⟨⟨hguar, huntaken⟩, hpost⟩
        refine ⟨hc.trans s0 s1 s hbefore hguar, ?_, hpost⟩
        intro htaken
        exact (hsettled (huntaken htaken)).imp_right
          (fun hdone => hmet s1 s hdone (hc.gives s1 s hguar))
    | throw error =>
        intro s0 s1 s hbefore hsettled hends
        rcases hends with ⟨⟨hguar, huntaken⟩, hfail⟩
        refine ⟨hc.trans s0 s1 s hbefore hguar, ?_, hfail⟩
        intro htaken
        exact (hsettled (huntaken htaken)).imp_right
          (fun hdone => hmet s1 s hdone (hc.gives s1 s hguar))
    | get next ih => exact fun s0 s1 s hbefore hsettled hends => ih s s0 s1 s hbefore hsettled hends
    | set state next ih =>
        exact fun s0 s1 s hbefore hsettled hends => ih s0 s1 state hbefore hsettled hends
    | await question next ih =>
        intro s0 s1 s hbefore hsettled hends
        rcases hends with ⟨⟨hguar, huntaken⟩, hrest⟩
        constructor
        · exact hc.trans s0 s1 s hbefore hguar
        · intro s' answer hrely hanswer
          have hnext : Ends (c.untaken duty) post fail (next answer) s' s' :=
            hrest s' answer hrely hanswer
          constructor
          · exact ih answer s' s' s' (hc.refl s') (Duty.Settled.refl duty s') hnext
          · intro htaken
            apply (hsettled (huntaken htaken)).imp_right
            intro hdone
            have hless : forall s s', (c.untaken duty).guar s s' -> c.guar s s' := fun _ _ h => h.1
            have hends : Ends c post fail (next answer) s' s' :=
              ends_mono hless (fun _ _ h => h) (fun _ _ _ h => h) hnext
            exact ends_frame hc hmet (hmet s s' (hmet s1 s hdone (hc.gives s1 s hguar)) hrely)
              (hc.refl s') hends
  exact fun s0 s hguar hsettled hs => hkept x s0 s s hguar hsettled (h s hs)

end Rules

/-!
# Runs
-/

section Run

variable {c duty}
variable {post : alpha -> sigma -> Prop} {fail : epsilon -> sigma -> Prop}
variable {x : Async reply sigma epsilon alpha} {s0 s s' : sigma}

theorem serves_returned {value : alpha} (h : Serves c duty post fail x s0 s)
    (hrun : run x s = (s', Paused.returned value)) :
    c.guar s0 s' ∧ duty.Settled s0 s' ∧ post value s' := by
  induction x generalizing s with
  | done other =>
      cases hrun
      exact h
  | throw error => cases hrun
  | get next ih => exact ih s h hrun
  | set state next ih => exact ih h hrun
  | await question next ih => cases hrun

theorem serves_threw {error : epsilon} (h : Serves c duty post fail x s0 s)
    (hrun : run x s = (s', Paused.threw error)) :
    c.guar s0 s' ∧ duty.Settled s0 s' ∧ fail error s' := by
  induction x generalizing s with
  | done value => cases hrun
  | throw other =>
      cases hrun
      exact h
  | get next ih => exact ih s h hrun
  | set state next ih => exact ih h hrun
  | await question next ih => cases hrun

theorem serves_waiting {question : query}
    {next : reply question -> Async reply sigma epsilon alpha}
    (h : Serves c duty post fail x s0 s)
    (hrun : run x s = (s', Paused.waiting question next)) :
    Serves c duty post fail (await question next) s0 s' := by
  induction x generalizing s with
  | done value => cases hrun
  | throw error => cases hrun
  | get following ih => exact ih s h hrun
  | set state following ih => exact ih h hrun
  | await asked following ih =>
      cases hrun
      exact h

end Run

end SharedMemoryFs.Foundation.Async
