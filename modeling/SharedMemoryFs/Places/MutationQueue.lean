import SharedMemoryFs.Foundation.OrderedMap

/-!
# The mutation queue

Ordering for the mutations of one place.  A task names the keys it touches, or
takes the exclusive barrier of the place, and waits for what it finds ahead of
it.  A task is identified by its position in the order of acceptance, which
stands for the tail promise the source keeps for it.

The one fact later proofs use is {lit}`Admits.settled_before`: whatever has
started has every earlier conflicting task settled.  It holds because a lock
always points at a task at least as late as every unsettled holder.
-/

namespace SharedMemoryFs

open Foundation

variable {alpha : Type}

/-!
# Conflicts
-/

/-- Two tasks of one place conflict when they share a key or one is exclusive. -/
def Conflict (a b : Option (List alpha)) : Prop :=
  match a, b with
  | some keys, some keys' => exists key, key ∈ keys ∧ key ∈ keys'
  | _, _ => True

theorem Conflict.symm {a b : Option (List alpha)} (h : Conflict a b) : Conflict b a := by
  cases a with
  | none =>
      cases b with
      | none => exact h
      | some keys' => exact trivial
  | some keys =>
      cases b with
      | none => exact trivial
      | some keys' =>
          rcases h with ⟨key, hkey, hkey'⟩
          exact ⟨key, hkey', hkey⟩

theorem conflict_none_left (b : Option (List alpha)) : Conflict none b := by
  cases b with
  | none => exact trivial
  | some keys => exact trivial

theorem conflict_none_right (a : Option (List alpha)) : Conflict a none :=
  (conflict_none_left a).symm

/-- What the queue keeps for an accepted task. -/
structure Accepted (alpha : Type) where
  keys : Option (List alpha)
  prior : List Nat

theorem Accepted.get_append {tasks : List (Accepted alpha)} {i : Nat} {t new' : Accepted alpha}
    (h : (tasks ++ [new'])[i]? = some t) :
    tasks[i]? = some t ∨ (i = tasks.length ∧ t = new') := by
  rcases Nat.lt_trichotomy i tasks.length with hlt | heq | hgt
  · rw [List.getElem?_append_left hlt] at h
    exact Or.inl h
  · rw [heq, List.getElem?_concat_length] at h
    exact Or.inr ⟨heq, (Option.some.inj h).symm⟩
  · rw [List.getElem?_eq_none (by rw [List.length_append]; exact hgt)] at h
    cases h

theorem Accepted.get_append_left {tasks : List (Accepted alpha)} {i : Nat} {t : Accepted alpha}
    (h : tasks[i]? = some t) (new' : Accepted alpha) : (tasks ++ [new'])[i]? = some t := by
  rw [List.getElem?_append_left (List.getElem?_eq_some_iff.mp h).1]
  exact h

/-!
# Lock records
-/

variable [DecidableEq alpha]

/-- The lock records of one place: the last task of each key, and the last
exclusive one when it has not been released. -/
structure Locks (alpha : Type) where
  keys : OrderedMap alpha Nat
  barrier : Option Nat

namespace Locks

def new : Locks alpha := ⟨OrderedMap.empty, none⟩

instance : Inhabited (Locks alpha) := ⟨new⟩

/-- The keys whose records a task takes, each once. -/
def held (keys : Option (List alpha)) : List alpha := (keys.getD []).dedup

/-- What {lit}`run` makes a new task wait for. -/
def prior (locks : Locks alpha) (keys : Option (List alpha)) : List Nat :=
  locks.barrier.toList ++
    match keys with
    | none => locks.keys.values
    | some _ => (held keys).filterMap locks.keys.get

def acquire (locks : Locks alpha) (task : Nat) (keys : Option (List alpha)) : Locks alpha :=
  match keys with
  | none => { keys := OrderedMap.empty, barrier := some task }
  | some _ =>
      { locks with keys := (held keys).foldl (fun tails key => tails.set key task) locks.keys }

/-- {lit}`#release`: records still pointing at the task go. -/
def release (locks : Locks alpha) (task : Nat) (keys : Option (List alpha)) : Locks alpha :=
  match keys with
  | none => if locks.barrier = some task then { locks with barrier := none } else locks
  | some _ =>
      { locks with
        keys := (held keys).foldl
          (fun tails key => if tails.get key = some task then tails.delete key else tails)
          locks.keys }

/-!
# What acquire and release leave
-/

theorem mem_held {keys : List alpha} {key : alpha} : key ∈ held (some keys) <-> key ∈ keys :=
  List.mem_dedup

theorem get_foldl_set (task : Nat) (keys : List alpha) (tails : OrderedMap alpha Nat)
    (key : alpha) :
    (keys.foldl (fun tails key => tails.set key task) tails).get key =
      if key ∈ keys then some task else tails.get key := by
  induction keys generalizing tails with
  | nil => simp
  | cons k rest ih =>
      rw [List.foldl_cons, ih, OrderedMap.get_set]
      by_cases hrest : key ∈ rest
      · rw [if_pos hrest, if_pos (List.mem_cons_of_mem k hrest)]
      · by_cases hk : key = k
        · rw [if_neg hrest, if_pos hk, hk, if_pos List.mem_cons_self]
        · rw [if_neg hrest, if_neg hk, if_neg (by simp [hk, hrest])]

theorem get_foldl_release (task : Nat) (keys : List alpha) (tails : OrderedMap alpha Nat)
    (key : alpha) :
    (keys.foldl (fun tails key =>
        if tails.get key = some task then tails.delete key else tails) tails).get key =
      if key ∈ keys ∧ tails.get key = some task then none else tails.get key := by
  induction keys generalizing tails with
  | nil => simp
  | cons k rest ih =>
      have hstep : (if tails.get k = some task then tails.delete k else tails).get key =
          if key = k ∧ tails.get key = some task then none else tails.get key := by
        by_cases hk : key = k
        · rw [hk]
          by_cases ht : tails.get k = some task
          · simp [ht]
          · simp [ht]
        · by_cases ht : tails.get k = some task
          · rw [if_pos ht, OrderedMap.get_delete_ne _ hk]
            simp [hk]
          · simp [hk, ht]
      rw [List.foldl_cons, ih, hstep]
      by_cases ht : tails.get key = some task
      · by_cases hk : key = k
        · simp [hk]
        · simp [hk]
      · simp [ht]

theorem get_acquire (locks : Locks alpha) (task : Nat) (keys : List alpha) (key : alpha) :
    (locks.acquire task (some keys)).keys.get key =
      if key ∈ keys then some task else locks.keys.get key := by
  rw [acquire, get_foldl_set]
  exact if_congr mem_held rfl rfl

theorem get_release (locks : Locks alpha) (task : Nat) (keys : List alpha) (key : alpha) :
    (locks.release task (some keys)).keys.get key =
      if key ∈ keys ∧ locks.keys.get key = some task then none else locks.keys.get key := by
  rw [release, get_foldl_release]
  exact if_congr (and_congr_left' mem_held) rfl rfl

end Locks

/-- How far each accepted task is; a settled one has started. -/
structure Progressed where
  started : Nat -> Prop
  settled : Nat -> Prop

/-!
# The queue invariant
-/

/-- The lock records and the waiting tasks of one place. -/
structure Admits (locks : Locks alpha) (tasks : List (Accepted alpha)) (at' : Progressed) :
    Prop where
  /-- An unsettled task is the tail of each of its keys, or behind it comes a
  later one or a barrier. -/
  key : forall (i : Nat) (t : Accepted alpha) (keys : List alpha), tasks[i]? = some t ->
    ¬ at'.settled i -> t.keys = some keys -> forall k, k ∈ keys ->
      (exists tail, locks.keys.get k = some tail ∧ i ≤ tail) ∨
        (exists b, locks.barrier = some b ∧ i < b)
  exclusive : forall (i : Nat) (t : Accepted alpha), tasks[i]? = some t ->
    ¬ at'.settled i -> t.keys = none -> exists b, locks.barrier = some b ∧ i ≤ b
  tail : forall k i, locks.keys.get k = some i ->
    exists t keys, tasks[i]? = some t ∧ t.keys = some keys ∧ k ∈ keys
  barrier : forall i, locks.barrier = some i ->
    exists t, tasks[i]? = some t ∧ t.keys = none
  /-- An earlier conflicting task is settled, or a task waited for is that one
  or comes later and conflicts with it. -/
  waits : forall (i j : Nat) (t u : Accepted alpha), tasks[i]? = some t ->
    tasks[j]? = some u -> i < j -> Conflict t.keys u.keys ->
      at'.settled i ∨ exists m v, m ∈ u.prior ∧ tasks[m]? = some v ∧ i ≤ m ∧
        (i = m ∨ Conflict t.keys v.keys)
  ordered : forall (i j : Nat) (t u : Accepted alpha), tasks[i]? = some t ->
    tasks[j]? = some u -> i < j -> Conflict t.keys u.keys -> at'.started j -> at'.settled i
  started : forall i, at'.settled i -> at'.started i
  nonempty : forall (i : Nat) (t : Accepted alpha), tasks[i]? = some t -> t.keys ≠ some []

namespace Admits

variable {locks : Locks alpha} {tasks : List (Accepted alpha)} {at' at'' : Progressed}
  {i j : Nat} {t u : Accepted alpha}

theorem new (at' : Progressed) (h : forall i, at'.settled i -> at'.started i) :
    Admits (Locks.new : Locks alpha) [] at' := by
  constructor
  · intro i t keys ht
    cases ht
  · intro i t ht
    cases ht
  · intro k i hget
    cases hget
  · intro i hget
    cases hget
  · intro i j t u ht
    cases ht
  · intro i j t u ht
    cases ht
  · exact h
  · intro i t ht
    cases ht

/-- Once everything a task waits for has settled, so has every earlier task it
conflicts with. -/
theorem settled_before (h : Admits locks tasks at') (ht : tasks[i]? = some t)
    (hu : tasks[j]? = some u) (hlt : i < j) (hconflict : Conflict t.keys u.keys)
    (hprior : forall m, m ∈ u.prior -> at'.settled m) : at'.settled i := by
  rcases h.waits i j t u ht hu hlt hconflict with hsettled | ⟨m, v, hm, hv, hle, hcases⟩
  · exact hsettled
  · rcases hcases with rfl | hconflict'
    · exact hprior i hm
    · rcases Nat.lt_or_eq_of_le hle with hlt' | rfl
      · exact h.ordered i m t v ht hv hlt' hconflict' (h.started m (hprior m hm))
      · exact hprior i hm

/-- Tasks started and not settled do not conflict. -/
theorem independent (h : Admits locks tasks at') (ht : tasks[i]? = some t)
    (hu : tasks[j]? = some u) (hne : i ≠ j) (hi : at'.started i) (hi' : ¬ at'.settled i)
    (hj : at'.started j) (hj' : ¬ at'.settled j) : ¬ Conflict t.keys u.keys := by
  intro hconflict
  rcases Nat.lt_or_gt_of_ne hne with hlt | hgt
  · exact hi' (h.ordered i j t u ht hu hlt hconflict hj)
  · exact hj' (h.ordered j i u t hu ht hgt hconflict.symm hi)

/-- The invariant of accepting one more task. -/
theorem accept (h : Admits locks tasks at') (keys : Option (List alpha))
    (hkeys : keys ≠ some [])
    (hfresh : ¬ at'.started tasks.length) :
    Admits (locks.acquire tasks.length keys)
      (tasks ++ [{ keys := keys, prior := locks.prior keys }]) at' := by
  have hlt : forall {i : Nat} {t : Accepted alpha}, tasks[i]? = some t -> i < tasks.length :=
    fun ht => (List.getElem?_eq_some_iff.mp ht).1
  constructor
  · intro i t ks ht hunsettled htkeys k hk
    rcases Accepted.get_append ht with hold | ⟨rfl, rfl⟩
    · cases keys with
      | none => exact Or.inr ⟨tasks.length, rfl, hlt hold⟩
      | some keys =>
          by_cases hmem : k ∈ keys
          · refine Or.inl ⟨tasks.length, ?_, Nat.le_of_lt (hlt hold)⟩
            rw [Locks.get_acquire, if_pos hmem]
          · rcases h.key i t ks hold hunsettled htkeys k hk with ⟨tail, htail, hle⟩ | hbarrier
            · refine Or.inl ⟨tail, ?_, hle⟩
              rw [Locks.get_acquire, if_neg hmem, htail]
            · exact Or.inr hbarrier
    · have hks : keys = some ks := htkeys
      rw [hks]
      refine Or.inl ⟨tasks.length, ?_, Nat.le_refl _⟩
      rw [Locks.get_acquire, if_pos hk]
  · intro i t ht hunsettled htkeys
    rcases Accepted.get_append ht with hold | ⟨rfl, rfl⟩
    · cases keys with
      | none => exact ⟨tasks.length, rfl, Nat.le_of_lt (hlt hold)⟩
      | some keys => exact h.exclusive i t hold hunsettled htkeys
    · have hks : keys = none := htkeys
      rw [hks]
      exact ⟨tasks.length, rfl, Nat.le_refl _⟩
  · intro k i hget
    cases keys with
    | none => cases hget
    | some keys =>
        rw [Locks.get_acquire] at hget
        by_cases hmem : k ∈ keys
        · rw [if_pos hmem] at hget
          rw [← Option.some.inj hget]
          exact ⟨_, keys, List.getElem?_concat_length, rfl, hmem⟩
        · rw [if_neg hmem] at hget
          rcases h.tail k i hget with ⟨t, ks, ht, hks, hk⟩
          exact ⟨t, ks, Accepted.get_append_left ht _, hks, hk⟩
  · intro i hget
    cases keys with
    | none =>
        rw [← Option.some.inj hget]
        exact ⟨_, List.getElem?_concat_length, rfl⟩
    | some keys =>
        rcases h.barrier i hget with ⟨t, ht, hnone⟩
        exact ⟨t, Accepted.get_append_left ht _, hnone⟩
  · intro i j t u ht hu hij hconflict
    rcases Accepted.get_append hu with hu | ⟨rfl, rfl⟩
    · have ht' : tasks[i]? = some t := by
        rcases Accepted.get_append ht with ht | ⟨rfl, _⟩
        · exact ht
        · exact absurd (hlt hu) (by omega)
      rcases h.waits i j t u ht' hu hij hconflict with hsettled | ⟨m, v, hm, hv, hrest⟩
      · exact Or.inl hsettled
      · exact Or.inr ⟨m, v, hm, Accepted.get_append_left hv _, hrest⟩
    · have ht' : tasks[i]? = some t := by
        rcases Accepted.get_append ht with ht | ⟨rfl, _⟩
        · exact ht
        · exact absurd hij (Nat.lt_irrefl _)
      by_cases hsettled : at'.settled i
      · exact Or.inl hsettled
      · refine Or.inr ?_
        have hbarrier : forall {b : Nat}, locks.barrier = some b -> i ≤ b ->
            exists m v, m ∈ locks.prior keys ∧
              (tasks ++ [{ keys := keys, prior := locks.prior keys }])[m]? = some v ∧
                i ≤ m ∧ (i = m ∨ Conflict t.keys v.keys) := by
          intro b hb hle
          rcases h.barrier b hb with ⟨v, hv, hnone⟩
          refine ⟨b, v, ?_, Accepted.get_append_left hv _, hle, Or.inr ?_⟩
          · unfold Locks.prior
            rw [hb]
            exact List.mem_append_left _ (List.mem_singleton.mpr rfl)
          · rw [hnone]
            exact conflict_none_right _
        cases htkeys : t.keys with
        | none =>
            rcases h.exclusive i t ht' hsettled htkeys with ⟨b, hb, hle⟩
            rw [← htkeys]
            exact hbarrier hb hle
        | some ks =>
            -- a key of the earlier task whose tail the new one waits for
            have hshared : exists k, k ∈ ks ∧ forall tail, locks.keys.get k = some tail ->
                tail ∈ locks.prior keys := by
              cases keys with
              | none =>
                  rcases List.exists_mem_of_ne_nil ks (by
                    intro hnil
                    rw [hnil] at htkeys
                    exact h.nonempty i t ht' htkeys) with ⟨k, hk⟩
                  refine ⟨k, hk, fun tail htail => List.mem_append_right _ ?_⟩
                  exact OrderedMap.mem_values_iff.mpr ⟨k, htail⟩
              | some keys =>
                  rw [htkeys] at hconflict
                  rcases hconflict with ⟨k, hk, hk'⟩
                  refine ⟨k, hk, fun tail htail => List.mem_append_right _ ?_⟩
                  exact List.mem_filterMap.mpr ⟨k, Locks.mem_held.mpr hk', htail⟩
            rcases hshared with ⟨k, hk, hprior⟩
            rw [← htkeys]
            rcases h.key i t ks ht' hsettled htkeys k hk with ⟨tail, htail, hle⟩ | ⟨b, hb, hlt'⟩
            · rcases h.tail k tail htail with ⟨v, vs, hv, hvkeys, hkv⟩
              refine ⟨tail, v, hprior tail htail, Accepted.get_append_left hv _, hle, Or.inr ?_⟩
              rw [htkeys, hvkeys]
              exact ⟨k, hk, hkv⟩
            · exact hbarrier hb (Nat.le_of_lt hlt')
  · intro i j t u ht hu hij hconflict hstarted
    rcases Accepted.get_append hu with hu | ⟨rfl, rfl⟩
    · rcases Accepted.get_append ht with ht | ⟨rfl, _⟩
      · exact h.ordered i j t u ht hu hij hconflict hstarted
      · exact absurd (hlt hu) (by omega)
    · exact absurd hstarted hfresh
  · exact h.started
  · intro i t ht
    rcases Accepted.get_append ht with ht | ⟨rfl, rfl⟩
    · exact h.nonempty i t ht
    · exact hkeys

/-- A record points at a settled task only when no earlier holder is unsettled,
so dropping it uncovers nothing. -/
theorem release (h : Admits locks tasks at') {task : Nat} (ht : tasks[task]? = some t)
    (hsettled : at'.settled task) : Admits (locks.release task t.keys) tasks at' := by
  have hstarted := h.started task hsettled
  cases htkeys : t.keys with
  | none =>
      by_cases hb : locks.barrier = some task
      · have hrelease : locks.release task none = { locks with barrier := none } := by
          rw [Locks.release, if_pos hb]
        have hcovered : forall (i : Nat) (u : Accepted alpha), tasks[i]? = some u ->
            ¬ at'.settled i -> ¬ i ≤ task := by
          intro i u hu hi hle
          rcases Nat.lt_or_eq_of_le hle with hlt | rfl
          · refine hi (h.ordered i task u t hu ht hlt ?_ hstarted)
            rw [htkeys]
            exact conflict_none_right _
          · exact hi hsettled
        rw [hrelease]
        constructor
        · intro i u keys hu hi hkeys k hk
          rcases h.key i u keys hu hi hkeys k hk with htail | ⟨b, hbarrier, hlt⟩
          · exact Or.inl htail
          · rw [hb, Option.some.injEq] at hbarrier
            rw [← hbarrier] at hlt
            exact absurd (Nat.le_of_lt hlt) (hcovered i u hu hi)
        · intro i u hu hi hkeys
          rcases h.exclusive i u hu hi hkeys with ⟨b, hbarrier, hle⟩
          rw [hb, Option.some.injEq] at hbarrier
          rw [← hbarrier] at hle
          exact absurd hle (hcovered i u hu hi)
        · exact h.tail
        · intro i hnone
          cases hnone
        · exact h.waits
        · exact h.ordered
        · exact h.started
        · exact h.nonempty
      · rw [Locks.release, if_neg hb]
        exact h
  | some keys =>
      have hdropped : forall {i : Nat} {u : Accepted alpha} {ks : List alpha},
          tasks[i]? = some u -> ¬ at'.settled i -> u.keys = some ks -> forall {k : alpha},
          k ∈ ks -> k ∈ keys -> ¬ i ≤ task := by
        intro i u ks hu hi hukeys k hk hk' hle
        rcases Nat.lt_or_eq_of_le hle with hlt | rfl
        · refine hi (h.ordered i task u t hu ht hlt ?_ hstarted)
          rw [hukeys, htkeys]
          exact ⟨k, hk, hk'⟩
        · exact hi hsettled
      constructor
      · intro i u ks hu hi hukeys k hk
        rcases h.key i u ks hu hi hukeys k hk with ⟨tail, htail, hle⟩ | hbarrier
        · refine Or.inl ⟨tail, ?_, hle⟩
          rw [Locks.get_release, if_neg, htail]
          intro hcond
          rw [htail, Option.some.injEq] at hcond
          rw [hcond.2] at hle
          exact hdropped hu hi hukeys hk hcond.1 hle
        · exact Or.inr hbarrier
      · exact h.exclusive
      · intro k i hget
        rw [Locks.get_release] at hget
        split_ifs at hget
        exact h.tail k i hget
      · exact h.barrier
      · exact h.waits
      · exact h.ordered
      · exact h.started
      · exact h.nonempty

/-- One task goes on, every earlier task it conflicts with having settled. -/
theorem progress (h : Admits locks tasks at') {task : Nat} (ht : tasks[task]? = some t)
    (hearlier : forall i u, tasks[i]? = some u -> i < task -> Conflict u.keys t.keys ->
      at'.settled i)
    (hstarted : forall i, at''.started i <-> (at'.started i ∨ i = task))
    (hsettled : forall i, at''.settled i -> (at'.settled i ∨ i = task))
    (hkept : forall i, at'.settled i -> at''.settled i) :
    Admits locks tasks at'' := by
  have hunsettled : forall {i : Nat}, ¬ at''.settled i -> ¬ at'.settled i :=
    fun hi hi' => hi (hkept _ hi')
  constructor
  · exact fun i u keys hu hi => h.key i u keys hu (hunsettled hi)
  · exact fun i u hu hi => h.exclusive i u hu (hunsettled hi)
  · exact h.tail
  · exact h.barrier
  · intro i j u v hu hv hij hconflict
    rcases h.waits i j u v hu hv hij hconflict with hs | hm
    · exact Or.inl (hkept i hs)
    · exact Or.inr hm
  · intro i j u v hu hv hij hconflict hj
    rcases (hstarted j).mp hj with hj | rfl
    · exact hkept i (h.ordered i j u v hu hv hij hconflict hj)
    · rw [ht, Option.some.injEq] at hv
      subst hv
      exact hkept i (hearlier i u hu hij hconflict)
  · intro i hi
    rcases hsettled i hi with hi | rfl
    · exact (hstarted i).mpr (Or.inl (h.started i hi))
    · exact (hstarted i).mpr (Or.inr rfl)
  · exact h.nonempty

end Admits

end SharedMemoryFs
