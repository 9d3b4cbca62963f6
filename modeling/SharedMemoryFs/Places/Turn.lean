import SharedMemoryFs.Places.Hierarchy

/-!
# One mutation in its turn

What the start of a mutation establishes, and when it would start the same way in
another state: with fewer keys in flight, with the locks a request would choose
now, and after other mutations have changed other keys.
-/

namespace SharedMemoryFs

open Foundation PlaceFiles

namespace SabStore

variable {place : Place} {files files' : Files} {creating : List Key} {locked : Bool}
  {now : Nat} {op : Mutation} {plan : Plan}

theorem create_ok {key : Key} {fail : Place.Fail} {input : Except Refusal PlaceFile}
    {removed : List Key} (h : create files creating key fail input removed = Except.ok plan) :
    Place.checkHierarchy files key fail creating = Except.ok () ∧
      plan = Plan.publish key input removed := by
  rcases Place.bind_ok.mp h with ⟨_, hcheck, hplan⟩
  exact ⟨hcheck, (Except.ok.inj hplan).symm⟩

theorem create_of {key : Key} {fail : Place.Fail} (input : Except Refusal PlaceFile)
    (removed : List Key) (h : Place.checkHierarchy files key fail creating = Except.ok ()) :
    create files creating key fail input removed =
      Except.ok (Plan.publish key input removed) := by
  unfold create
  rw [h]
  rfl

theorem write_ok {key : Key} {data : Bytes} {exclusive : Bool}
    (h : write place files creating key data exclusive now = Except.ok plan) :
    (exclusive = true -> files.hasSource key = false ∧ files.isDirectory key = false) ∧
      Place.checkHierarchy files key (place.failOn Syscall.openFile key) creating =
        Except.ok () ∧
      plan = Plan.publish key (input place key data now) [] := by
  rcases Place.bind_ok.mp h with ⟨_, hexclusive, hcreate⟩
  refine ⟨?_, create_ok hcreate⟩
  intro htrue
  rw [if_pos htrue] at hexclusive
  unfold Place.checkExclusive at hexclusive
  split_ifs at hexclusive with hpresent
  rw [not_or, Bool.not_eq_true, Bool.not_eq_true] at hpresent
  exact hpresent

theorem write_of {key : Key} {data : Bytes} {exclusive : Bool}
    (hexclusive : exclusive = true -> files.hasSource key = false ∧ files.isDirectory key = false)
    (hcheck : Place.checkHierarchy files key (place.failOn Syscall.openFile key) creating =
      Except.ok ()) :
    write place files creating key data exclusive now =
      Except.ok (Plan.publish key (input place key data now) []) := by
  have hfirst : (if exclusive = true then
      Place.checkExclusive files key (place.failOn Syscall.openFile key)
    else Except.ok ()) = Except.ok () := by
    by_cases htrue : exclusive = true
    · rw [if_pos htrue, Place.checkExclusive, (hexclusive htrue).1, (hexclusive htrue).2]
      rfl
    · rw [if_neg htrue]
  unfold write
  dsimp only
  rw [hfirst]
  exact create_of _ _ hcheck

/-- What {lit}`append` publishes. -/
def joined (files : Files) (key : Key) (data : Bytes) : Bytes :=
  match files.get (EntryKey.ofSource key) with
  | some current => current.data ++ data
  | none => data

theorem append_ok {key : Key} {data : Bytes}
    (h : append place files creating key data now = Except.ok plan) :
    (place.prepared key).isSome = false ∧
      Place.checkHierarchy files key (place.failOn Syscall.openFile key) creating =
        Except.ok () ∧
      plan = Plan.publish key (input place key (joined files key data) now) [] := by
  unfold append at h
  dsimp only at h
  split_ifs at h with hprepared
  exact ⟨Bool.not_eq_true _ ▸ hprepared, create_ok h⟩

theorem append_of {key : Key} {data : Bytes} (hprepared : (place.prepared key).isSome = false)
    (hcheck : Place.checkHierarchy files key (place.failOn Syscall.openFile key) creating =
      Except.ok ()) :
    append place files creating key data now =
      Except.ok (Plan.publish key (input place key (joined files key data) now) []) := by
  unfold append
  dsimp only
  rw [if_neg (by rw [hprepared]; exact Bool.false_ne_true)]
  exact create_of _ _ hcheck

theorem unlink_ok {key : Key} {directory : Bool}
    (h : unlink place files key directory = Except.ok plan) :
    plan = Plan.now (unstaged place [key]) := by
  unfold unlink at h
  dsimp only at h
  split_ifs at h
  exact (Except.ok.inj h).symm

theorem rm_ok {key : Key} {directory force recursive : Bool}
    (h : rm place files key directory force recursive = Except.ok plan) :
    exists keys, plan = Plan.now (unstaged place keys) := by
  unfold rm at h
  dsimp only at h
  split_ifs at h
  · exact ⟨[key], (Except.ok.inj h).symm⟩
  · exact ⟨[], (Except.ok.inj h).symm⟩
  · exact ⟨_, (Except.ok.inj h).symm⟩

theorem mkdir_ok {key : Key} {recursive : Bool}
    (h : mkdir place files creating key recursive = Except.ok plan) :
    Place.checkMkdir files key recursive (place.failOn Syscall.mkdir key) creating =
        Except.ok () ∧
      plan = Plan.now (unstaged place []) := by
  rcases Place.bind_ok.mp h with ⟨_, hcheck, hplan⟩
  exact ⟨hcheck, (Except.ok.inj hplan).symm⟩

/-- A rename moves a subtree, or publishes a source under its new key. -/
theorem rename_ok {source target : Key} {directory : Bool}
    (h : rename place files creating locked source target directory = Except.ok plan) :
    (files.get (EntryKey.ofSource source) = none ∧ locked = false ∧
        files.isDirectory source = true ∧
        exists moves, place.subtreeMoves files source target creating = Except.ok moves ∧
          plan = Plan.move moves) ∨
      exists current, files.get (EntryKey.ofSource source) = some current ∧
        directory = false ∧ (place.prepared source).isSome = false ∧
        Place.checkHierarchy files target (place.failRename source target) creating =
          Except.ok () ∧
        plan = Plan.publish target
          (input place target current.data current.stat.mtimeMs) [source] := by
  unfold rename at h
  dsimp only at h
  cases hcurrent : files.get (EntryKey.ofSource source) with
  | none =>
      rw [hcurrent] at h
      dsimp only at h
      split_ifs at h with htree
      rcases Place.bind_ok.mp h with ⟨moves, hmoves, hplan⟩
      have hunlocked : locked = false := by simpa using htree.1
      exact Or.inl ⟨rfl, hunlocked, htree.2, moves, hmoves, (Except.ok.inj hplan).symm⟩
  | some current =>
      rw [hcurrent] at h
      dsimp only at h
      split_ifs at h with hdirectory hprepared
      refine Or.inr ⟨current, rfl, ?_, ?_, create_ok h⟩
      · exact Bool.not_eq_true _ ▸ hdirectory
      · exact Bool.not_eq_true _ ▸ hprepared

theorem rename_move_of {source target : Key} {directory : Bool}
    {moves : List (EntryKey × EntryKey)} (hnone : files.get (EntryKey.ofSource source) = none)
    (hdirectory : files.isDirectory source = true)
    (hmoves : place.subtreeMoves files source target creating = Except.ok moves) :
    rename place files creating false source target directory =
      Except.ok (Plan.move moves) := by
  unfold rename
  simp only [hnone, hdirectory, hmoves, Bool.not_false, and_self, if_true]
  rfl

theorem rename_publish_of {source target : Key} {directory : Bool} {current : PlaceFile}
    (hcurrent : files.get (EntryKey.ofSource source) = some current) (hfile : directory = false)
    (hprepared : (place.prepared source).isSome = false)
    (hcheck : Place.checkHierarchy files target (place.failRename source target) creating =
      Except.ok ()) :
    rename place files creating locked source target directory =
      Except.ok (Plan.publish target
        (input place target current.data current.stat.mtimeMs) [source]) := by
  unfold rename
  simp only [hcurrent, hfile, hprepared, Bool.false_eq_true, if_false]
  exact create_of _ _ hcheck

/-!
# What a started mutation does
-/

theorem plain_of_canonical {key : Key} (hop : op.Canonical) (hkey : key ∈ op.keys) : Plain key :=
  canonicalKey_plain (hop key hkey)

/-- A publication targets a key of its mutation, removes keys of it and was
cleared by the check. -/
theorem start_publish (hindexed : files.Indexed) (hop : op.Canonical) {target : Key}
    {input' : Except Refusal PlaceFile} {removed : List Key}
    (h : start place files creating locked now op =
      Except.ok (Plan.publish target input' removed)) :
    target ∈ op.keys ∧ (forall key, key ∈ removed -> key ∈ op.keys) ∧
      Place.Clear files creating target := by
  cases op with
  | write key data exclusive =>
      rcases write_ok h with ⟨_, hcheck, hplan⟩
      injection hplan with htarget _ hremoved
      rw [htarget, hremoved]
      have hkey : key ∈ (Mutation.write key data exclusive).keys := List.mem_singleton.mpr rfl
      exact ⟨hkey, by simp,
        (Place.checkHierarchy_ok hindexed (plain_of_canonical hop hkey)).mp hcheck⟩
  | append key data =>
      rcases append_ok h with ⟨_, hcheck, hplan⟩
      injection hplan with htarget _ hremoved
      rw [htarget, hremoved]
      have hkey : key ∈ (Mutation.append key data).keys := List.mem_singleton.mpr rfl
      exact ⟨hkey, by simp,
        (Place.checkHierarchy_ok hindexed (plain_of_canonical hop hkey)).mp hcheck⟩
  | unlink key directory => cases unlink_ok h
  | mkdir key recursive => cases (mkdir_ok h).2
  | rm key directory force recursive =>
      rcases rm_ok h with ⟨keys, hplan⟩
      cases hplan
  | rename source target' directory =>
      rcases rename_ok h with ⟨_, _, _, moves, _, hplan⟩ | ⟨current, _, _, _, hcheck, hplan⟩
      · cases hplan
      · injection hplan with htarget _ hremoved
        rw [htarget, hremoved]
        have hkey : target' ∈ (Mutation.rename source target' directory).keys := by
          simp [Mutation.keys]
        refine ⟨hkey, ?_,
          (Place.checkHierarchy_ok hindexed (plain_of_canonical hop hkey)).mp hcheck⟩
        intro key hkey'
        rw [List.mem_singleton.mp hkey']
        simp [Mutation.keys]

/-- What takes effect at once removes sources, of other keys only in a removal of
a subtree. -/
theorem start_now {changes : List Change}
    (h : start place files creating locked now op = Except.ok (Plan.now changes)) :
    exists keys, changes = unstaged place keys ∧
      ((forall key, key ∈ keys -> key ∈ op.keys) ∨ exists key directory force recursive,
        op = Mutation.rm key directory force recursive) := by
  cases op with
  | write key data exclusive => cases (write_ok h).2.2
  | append key data => cases (append_ok h).2.2
  | unlink key directory =>
      injection unlink_ok h with hchanges
      exact ⟨[key], hchanges, Or.inl (fun _ hk => hk)⟩
  | mkdir key recursive =>
      injection (mkdir_ok h).2 with hchanges
      exact ⟨[], hchanges, Or.inl (by simp)⟩
  | rm key directory force recursive =>
      rcases rm_ok h with ⟨keys, hplan⟩
      injection hplan with hchanges
      exact ⟨keys, hchanges, Or.inr ⟨key, directory, force, recursive, rfl⟩⟩
  | rename source target directory =>
      rcases rename_ok h with ⟨_, _, _, moves, _, hplan⟩ | ⟨current, _, _, _, _, hplan⟩
      · cases hplan
      · cases hplan

theorem start_move {moves : List (EntryKey × EntryKey)}
    (h : start place files creating locked now op = Except.ok (Plan.move moves)) :
    locked = false ∧ exists source target directory,
      op = Mutation.rename source target directory ∧
        place.subtreeMoves files source target creating = Except.ok moves := by
  cases op with
  | write key data exclusive => cases (write_ok h).2.2
  | append key data => cases (append_ok h).2.2
  | unlink key directory => cases unlink_ok h
  | mkdir key recursive => cases (mkdir_ok h).2
  | rm key directory force recursive =>
      rcases rm_ok h with ⟨keys, hplan⟩
      cases hplan
  | rename source target directory =>
      rcases rename_ok h with ⟨_, hlocked, _, moves', hmoves, hplan⟩ | ⟨current, _, _, _, _, hplan⟩
      · injection hplan with heq
        rw [heq]
        exact ⟨hlocked, source, target, directory, rfl, hmoves⟩
      · cases hplan

/-!
# The same start elsewhere
-/

theorem subtreeMoves_weaken (hindexed : files.Indexed) {source target : Key}
    (htarget : Plain target) {moves : List (EntryKey × EntryKey)}
    (h : place.subtreeMoves files source target creating = Except.ok moves) :
    place.subtreeMoves files source target [] = Except.ok moves := by
  unfold Place.subtreeMoves at h ⊢
  dsimp only at h ⊢
  split_ifs at h ⊢ with h1 h2
  · exact h
  · rcases Place.bind_ok.mp h with ⟨_, hcheck, hmoves⟩
    rw [Place.checkHierarchy_weaken hindexed htarget hcheck]
    exact hmoves

theorem checkMkdir_weaken {key : Key} (hkey : Plain key) {recursive : Bool} {fail : Place.Fail}
    (h : Place.checkMkdir files key recursive fail creating = Except.ok ()) :
    Place.checkMkdir files key recursive fail [] = Except.ok () := by
  unfold Place.checkMkdir at h ⊢
  split_ifs at h with h1 h2 h3
  have habove : ¬ Place.fileAbove files key [] = true := by
    intro hcontra
    rw [Place.fileAbove_iff (Or.inr hkey.1)] at hcontra
    rcases hcontra with ⟨file, hne, hlt, hfile | hfile⟩
    · exact h2 ((Place.fileAbove_iff (Or.inr hkey.1)).mpr ⟨file, hne, hlt, Or.inl hfile⟩)
    · cases hfile
  rw [if_neg, if_neg habove, if_neg h3]
  intro hcontra
  rcases hcontra with hfile | hfile
  · exact h1 (Or.inl hfile)
  · cases hfile

/-- A mutation that starts while keys are in flight starts without them. -/
theorem start_weaken (hindexed : files.Indexed) (hop : op.Canonical)
    (h : start place files creating locked now op = Except.ok plan) :
    start place files [] locked now op = Except.ok plan := by
  have hplain : forall {key : Key}, key ∈ op.keys -> Plain key := plain_of_canonical hop
  cases op with
  | write key data exclusive =>
      rcases write_ok h with ⟨hexclusive, hcheck, hplan⟩
      rw [hplan]
      exact write_of hexclusive
        (Place.checkHierarchy_weaken hindexed (hplain (List.mem_singleton.mpr rfl)) hcheck)
  | append key data =>
      rcases append_ok h with ⟨hprepared, hcheck, hplan⟩
      rw [hplan]
      exact append_of hprepared
        (Place.checkHierarchy_weaken hindexed (hplain (List.mem_singleton.mpr rfl)) hcheck)
  | unlink key directory => exact h
  | mkdir key recursive =>
      rcases mkdir_ok h with ⟨hcheck, hplan⟩
      rw [hplan]
      show mkdir place files [] key recursive = _
      rw [mkdir, checkMkdir_weaken (hplain (List.mem_singleton.mpr rfl)) hcheck]
      rfl
  | rm key directory force recursive => exact h
  | rename source target directory =>
      have htarget : Plain target := hplain (by simp [Mutation.keys])
      rcases rename_ok h with ⟨hnone, hlocked, hdirectory, moves, hmoves, hplan⟩ |
        ⟨current, hcurrent, hfile, hprepared, hcheck, hplan⟩
      · rw [hplan, hlocked]
        exact rename_move_of hnone hdirectory (subtreeMoves_weaken hindexed htarget hmoves)
      · rw [hplan]
        exact rename_publish_of hcurrent hfile hprepared
          (Place.checkHierarchy_weaken hindexed htarget hcheck)

/-- A mutation that starts would lock now what lets it start the same way. -/
theorem start_locks (h : start place files creating locked now op = Except.ok plan) :
    start place files creating (locksOf files op).isSome now op = Except.ok plan := by
  cases op with
  | write key data exclusive => exact h
  | append key data => exact h
  | unlink key directory => exact h
  | mkdir key recursive => exact h
  | rm key directory force recursive => exact h
  | rename source target directory =>
      rcases rename_ok h with ⟨hnone, hlocked, hdirectory, moves, hmoves, hplan⟩ |
        ⟨current, hcurrent, hfile, hprepared, hcheck, hplan⟩
      · have hlocks : locksOf files (Mutation.rename source target directory) = none := by
          rw [locksOf, if_neg]
          intro hcond
          rw [hasSource_eq_false.mpr hnone] at hcond
          cases hcond.2
        rw [hplan, hlocks]
        exact rename_move_of hnone hdirectory hmoves
      · rw [hplan]
        exact rename_publish_of hcurrent hfile hprepared hcheck

/-- A publication would start the same way after other keys changed, as long as
no file came above or below its target. -/
theorem start_stable (hindexed : files'.Indexed) (hop : op.Canonical) {target : Key}
    {input' : Except Refusal PlaceFile} {removed : List Key}
    (h : start place files [] locked now op = Except.ok (Plan.publish target input' removed))
    (hsame : forall key, key ∈ op.keys ->
      files'.get (EntryKey.ofSource key) = files.get (EntryKey.ofSource key))
    (habove : forall file, files'.hasSource file = true -> ¬ Above slash file target)
    (hbelow : forall file, files'.hasSource file = true -> ¬ Above slash target file) :
    start place files' [] locked now op = Except.ok (Plan.publish target input' removed) := by
  have hcheck : forall {fail : Place.Fail}, Plain target ->
      Place.checkHierarchy files' target fail [] = Except.ok () := by
    intro fail htarget
    rw [Place.checkHierarchy_ok hindexed htarget]
    constructor
    · intro file hfile _
      rcases hfile with hfile | hfile
      · exact habove file hfile
      · cases hfile
    · refine Or.inr (fun file hfile => ?_)
      rcases hfile with hfile | hfile
      · exact hbelow file hfile
      · cases hfile
  cases op with
  | write key data exclusive =>
      rcases write_ok h with ⟨hexclusive, _, hplan⟩
      injection hplan with htarget hinput hremoved
      have hkey : Plain target := by
        rw [htarget]
        exact plain_of_canonical hop (List.mem_singleton.mpr rfl)
      rw [hinput, hremoved]
      subst htarget
      refine write_of (fun htrue => ⟨?_, ?_⟩) (hcheck hkey)
      · rw [hasSource_eq_false, hsame target (List.mem_singleton.mpr rfl)]
        exact hasSource_eq_false.mp (hexclusive htrue).1
      · rw [Bool.eq_false_iff]
        intro hdirectory
        rcases (isDirectory_iff hindexed hkey).mp hdirectory with ⟨file, hfile, hlt⟩
        exact hbelow file hfile hlt
  | append key data =>
      rcases append_ok h with ⟨hprepared, _, hplan⟩
      injection hplan with htarget hinput hremoved
      have hkey : Plain target := by
        rw [htarget]
        exact plain_of_canonical hop (List.mem_singleton.mpr rfl)
      have hjoined : joined files' key data = joined files key data := by
        unfold joined
        rw [hsame key (List.mem_singleton.mpr rfl)]
      rw [hinput, hremoved, ← hjoined]
      subst htarget
      exact append_of hprepared (hcheck hkey)
  | unlink key directory => cases unlink_ok h
  | mkdir key recursive => cases (mkdir_ok h).2
  | rm key directory force recursive =>
      rcases rm_ok h with ⟨keys, hplan⟩
      cases hplan
  | rename source target' directory =>
      rcases rename_ok h with ⟨_, _, _, moves, _, hplan⟩ |
        ⟨current, hcurrent, hfile, hprepared, _, hplan⟩
      · cases hplan
      · injection hplan with htarget hinput hremoved
        have hkey : Plain target := by
          rw [htarget]
          exact plain_of_canonical hop (by simp [Mutation.keys])
        rw [hinput, hremoved]
        subst htarget
        refine rename_publish_of ?_ hfile hprepared (hcheck hkey)
        rw [hsame source (by simp [Mutation.keys])]
        exact hcurrent

/-- A mutation locks its keys, or the whole place. -/
theorem locksOf_cases (files : Files) (op : Mutation) :
    locksOf files op = none ∨ locksOf files op = some op.keys := by
  cases op with
  | write key data exclusive => exact Or.inr rfl
  | append key data => exact Or.inr rfl
  | unlink key directory => exact Or.inr rfl
  | mkdir key recursive => exact Or.inr rfl
  | rm key directory force recursive => exact Or.inl rfl
  | rename source target directory =>
      by_cases hfile : !directory ∧ files.hasSource source = true
      · exact Or.inr (if_pos hfile)
      · exact Or.inl (if_neg hfile)

theorem keys_ne_nil (op : Mutation) : op.keys ≠ [] := by
  cases op <;> exact List.cons_ne_nil _ _

theorem copiesOf_append {env : Env} {done rest : List (EntryKey × EntryKey)}
    {copies more : List Copy} (h : copiesOf files env done = Except.ok copies)
    (h' : copiesOf files env rest = Except.ok more) :
    copiesOf files env (done ++ rest) = Except.ok (copies ++ more) := by
  induction done generalizing copies with
  | nil =>
      rw [copiesOf, Except.ok.injEq] at h
      rw [← h]
      exact h'
  | cons move moves ih =>
      rw [List.cons_append]
      unfold copiesOf at h ⊢
      cases hget : files.get move.1 with
      | none =>
          rw [hget] at h
          cases h
      | some file =>
          rw [hget] at h
          dsimp only at h ⊢
          split_ifs at h ⊢ with hfits
          rcases Place.bind_ok.mp h with ⟨tail, htail, hcopies⟩
          rw [ih htail, ← Except.ok.inj hcopies]
          rfl

/-- Copies list the moves they were made of. -/
theorem copiesOf_moves {env : Env} {moves : List (EntryKey × EntryKey)} {copies : List Copy}
    (h : copiesOf files env moves = Except.ok copies) :
    copies.map (fun copy => (copy.1, copy.2.1)) = moves := by
  induction moves generalizing copies with
  | nil =>
      rw [copiesOf, Except.ok.injEq] at h
      rw [← h]
      rfl
  | cons move rest ih =>
      unfold copiesOf at h
      cases hget : files.get move.1 with
      | none =>
          rw [hget] at h
          cases h
      | some file =>
          rw [hget] at h
          dsimp only at h
          split_ifs at h
          rcases Place.bind_ok.mp h with ⟨tail, htail, hcopies⟩
          rw [← Except.ok.inj hcopies, List.map_cons, ih htail]

end SabStore

end SharedMemoryFs
