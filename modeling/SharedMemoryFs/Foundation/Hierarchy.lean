import Mathlib

/-!
# Separated paths

A path is a list of symbols and one symbol separates its segments.  A path is
above another when the second continues it after a separator.  A set of paths is
prefix-free when none of its members is above another: read as files, no file is
also a directory.

{lit}`Leads` says which segment follows a directory on the way to a path.  It is
what an index of directories has to record, and {lit}`trail` lists it for one
path from the root down.
-/

namespace SharedMemoryFs
namespace Foundation

variable {alpha : Type u} {sep : alpha} {a b c key dir name : List alpha}

/-!
# The ancestor order
-/

def Above (sep : alpha) (a b : List alpha) : Prop := exists rest, b = a ++ sep :: rest

theorem Above.length_lt (h : Above sep a b) : a.length < b.length := by
  rcases h with ⟨rest, hrest⟩
  rw [hrest, List.length_append, List.length_cons]
  omega

theorem Above.irrefl : ¬ Above sep a a := fun h => Nat.lt_irrefl _ h.length_lt

theorem Above.ne (h : Above sep a b) : a ≠ b := by
  intro heq
  rw [heq] at h
  exact Above.irrefl h

theorem Above.trans (h : Above sep a b) (h' : Above sep b c) : Above sep a c := by
  rcases h with ⟨r, hr⟩
  rcases h' with ⟨r', hr'⟩
  exact ⟨r ++ sep :: r', by rw [hr', hr, List.append_assoc, List.cons_append]⟩

theorem Above.asymm (h : Above sep a b) : ¬ Above sep b a :=
  fun h' => Above.irrefl (h.trans h')

/-- Two continuations that spell one path: one starts the other. -/
theorem comparable {x y : List alpha} (h : a ++ sep :: x = b ++ sep :: y) :
    a = b ∨ Above sep a b ∨ Above sep b a := by
  induction a generalizing b with
  | nil =>
      cases b with
      | nil => exact Or.inl rfl
      | cons c rest =>
          have hc : sep = c := (List.cons.inj h).1
          exact Or.inr (Or.inl ⟨rest, by rw [hc]; rfl⟩)
  | cons d as ih =>
      cases b with
      | nil =>
          have hd : d = sep := (List.cons.inj h).1
          exact Or.inr (Or.inr ⟨as, by rw [hd]; rfl⟩)
      | cons c bs =>
          have hd : d = c := (List.cons.inj h).1
          have htail : as ++ sep :: x = bs ++ sep :: y := (List.cons.inj h).2
          rw [hd]
          rcases ih htail with heq | ⟨r, hr⟩ | ⟨r, hr⟩
          · exact Or.inl (by rw [heq])
          · exact Or.inr (Or.inl ⟨r, by rw [hr]; rfl⟩)
          · exact Or.inr (Or.inr ⟨r, by rw [hr]; rfl⟩)

/-- The paths above one path form a chain. -/
theorem Above.comparable (h : Above sep a c) (h' : Above sep b c) :
    a = b ∨ Above sep a b ∨ Above sep b a := by
  rcases h with ⟨r, hr⟩
  rcases h' with ⟨r', hr'⟩
  exact Foundation.comparable (hr.symm.trans hr')

theorem above_append_iff {x y : List alpha} :
    Above sep (dir ++ sep :: x) (dir ++ sep :: y) <-> Above sep x y := by
  constructor
  · intro h
    rcases h with ⟨r, hr⟩
    rw [List.append_assoc] at hr
    exact ⟨r, (List.cons.inj (List.append_cancel_left hr)).2⟩
  · intro h
    rcases h with ⟨r, hr⟩
    exact ⟨r, by rw [hr, List.append_assoc, List.cons_append]⟩

theorem isPrefixOf_iff [BEq alpha] [LawfulBEq alpha] :
    (a ++ [sep]).isPrefixOf b = true <-> Above sep a b := by
  rw [List.isPrefixOf_iff_prefix]
  constructor
  · intro h
    rcases h with ⟨rest, hrest⟩
    exact ⟨rest, by rw [← hrest, List.append_assoc, List.singleton_append]⟩
  · intro h
    rcases h with ⟨rest, hrest⟩
    exact ⟨rest, by rw [hrest, List.append_assoc, List.singleton_append]⟩

/-!
# Prefix-free sets
-/

def PrefixFree (sep : alpha) (files : List alpha -> Prop) : Prop :=
  forall a b, files a -> files b -> ¬ Above sep a b

namespace PrefixFree

variable {files files' : List alpha -> Prop}

theorem empty : PrefixFree sep (fun _ => False) := fun _ _ ha _ => ha.elim

theorem mono (h : PrefixFree sep files) (hsub : forall a, files' a -> files a) :
    PrefixFree sep files' :=
  fun a b ha hb => h a b (hsub a ha) (hsub b hb)

/-- A new file keeps the set prefix-free when nothing is above or below it. -/
theorem insert (h : PrefixFree sep files)
    (habove : forall a, files a -> ¬ Above sep a key)
    (hbelow : forall a, files a -> ¬ Above sep key a) :
    PrefixFree sep (fun a => files a ∨ a = key) := by
  intro a b ha hb
  rcases ha with ha | rfl
  · rcases hb with hb | rfl
    · exact h a b ha hb
    · exact habove a ha
  · rcases hb with hb | rfl
    · exact hbelow b hb
    · exact Above.irrefl

/-- Re-keying everything below one directory under a free place that no file is
above or at. -/
theorem rekey {source target : List alpha} (h : PrefixFree sep files)
    (habove : forall a, files a -> ¬ Above sep a target)
    (hat : ¬ files target)
    (hbelow : forall a, files a -> ¬ Above sep target a) :
    PrefixFree sep (fun a =>
      (files a ∧ ¬ Above sep source a) ∨
        exists rest, files (source ++ sep :: rest) ∧ a = target ++ sep :: rest) := by
  intro a b ha hb hab
  rcases ha with ⟨ha, _⟩ | ⟨x, hx, rfl⟩
  · rcases hb with ⟨hb, _⟩ | ⟨y, _, rfl⟩
    · exact h a b ha hb hab
    · have htarget : Above sep target (target ++ sep :: y) := ⟨y, rfl⟩
      rcases hab.comparable htarget with heq | hlt | hgt
      · rw [heq] at ha
        exact hat ha
      · exact habove a ha hlt
      · exact hbelow a ha hgt
  · have hsource : Above sep target (target ++ sep :: x) := ⟨x, rfl⟩
    rcases hb with ⟨hb, _⟩ | ⟨y, hy, rfl⟩
    · exact hbelow b hb (hsource.trans hab)
    · exact h _ _ hx hy (above_append_iff.mpr (above_append_iff.mp hab))

end PrefixFree

/-!
# The segment after a directory
-/

/-- {lit}`name` follows {lit}`dir` on the way to {lit}`key`. -/
def Leads (sep : alpha) (dir name key : List alpha) : Prop :=
  key = dir ++ sep :: name ∨ Above sep (dir ++ sep :: name) key

theorem Leads.above (h : Leads sep dir name key) : Above sep dir key := by
  have hname : Above sep dir (dir ++ sep :: name) := ⟨name, rfl⟩
  rcases h with heq | habove
  · rw [heq]
    exact hname
  · exact hname.trans habove

theorem Above.leads [DecidableEq alpha] (h : Above sep dir key) :
    exists name, sep ∉ name ∧ Leads sep dir name key := by
  rcases h with ⟨rest, hrest⟩
  by_cases hmem : sep ∈ rest
  · rcases List.eq_append_cons_of_mem hmem with ⟨name, tail, htail, hname⟩
    refine ⟨name, hname, Or.inr ⟨tail, ?_⟩⟩
    rw [hrest, htail, List.append_assoc, List.cons_append]
  · exact ⟨rest, hmem, Or.inl hrest⟩

theorem append_sep_inj {x y r s : List alpha} (hx : sep ∉ x) (hy : sep ∉ y)
    (h : x ++ sep :: r = y ++ sep :: s) : x = y ∧ r = s := by
  have hxy : x = y := by
    rcases Foundation.comparable h with heq | ⟨t, ht⟩ | ⟨t, ht⟩
    · exact heq
    · exact absurd (by rw [ht]; simp) hy
    · exact absurd (by rw [ht]; simp) hx
  rw [hxy] at h
  exact ⟨hxy, (List.cons.inj (List.append_cancel_left h)).2⟩

theorem Leads.unique {name' : List alpha} (hname : sep ∉ name) (hname' : sep ∉ name')
    (h : Leads sep dir name key) (h' : Leads sep dir name' key) : name = name' := by
  have hspell : forall {n : List alpha}, Leads sep dir n key ->
      exists r, key = dir ++ sep :: n ++ r ∧ (r = [] ∨ exists t, r = sep :: t) := by
    intro n hn
    rcases hn with heq | ⟨t, ht⟩
    · exact ⟨[], by rw [heq, List.append_nil], Or.inl rfl⟩
    · exact ⟨sep :: t, ht, Or.inr ⟨t, rfl⟩⟩
  rcases hspell h with ⟨r, hr, hr0⟩
  rcases hspell h' with ⟨s, hs, hs0⟩
  have heq : name ++ r = name' ++ s := by
    have hkey : dir ++ sep :: name ++ r = dir ++ sep :: name' ++ s := hr.symm.trans hs
    rw [List.append_assoc, List.append_assoc] at hkey
    exact (List.cons.inj (List.append_cancel_left hkey)).2
  rcases hr0 with rfl | ⟨t, rfl⟩
  · rcases hs0 with rfl | ⟨t', rfl⟩
    · simpa using heq
    · rw [List.append_nil] at heq
      exact absurd (by rw [heq]; simp) hname
  · rcases hs0 with rfl | ⟨t', rfl⟩
    · rw [List.append_nil] at heq
      exact absurd (by rw [← heq]; simp) hname'
    · exact (append_sep_inj hname hname' heq).1

/-!
# The way down to a path
-/

/-- The directories from {lit}`dir` down to a path, each with the segment that
follows it; {lit}`name` is the segment read so far. -/
def trail [DecidableEq alpha] (sep : alpha) :
    List alpha -> List alpha -> List alpha -> List (List alpha × List alpha)
  | dir, name, [] => [(dir, name)]
  | dir, name, c :: rest =>
      if c = sep then (dir, name) :: trail sep (dir ++ sep :: name) [] rest
      else trail sep dir (name ++ [c]) rest

theorem mem_trail [DecidableEq alpha] {rest d n : List alpha} (hname : sep ∉ name) :
    (d, n) ∈ trail sep dir name rest <->
      (sep ∉ n ∧ Leads sep d n (dir ++ sep :: (name ++ rest)) ∧ (d = dir ∨ Above sep dir d)) := by
  induction rest generalizing dir name with
  | nil =>
      rw [trail, List.mem_singleton, Prod.mk.injEq, List.append_nil]
      constructor
      · intro h
        rw [h.1, h.2]
        exact ⟨hname, Or.inl rfl, Or.inl rfl⟩
      · intro h
        rcases h with ⟨hn, hleads, hd⟩
        have hself : Leads sep dir name (dir ++ sep :: name) := Or.inl rfl
        rcases hd with rfl | ⟨x, hx⟩
        · exact ⟨rfl, hleads.unique hn hname hself⟩
        · have habove := hleads.above
          rw [hx] at habove
          rcases above_append_iff.mp habove with ⟨t, ht⟩
          exact absurd (by rw [ht]; simp) hname
  | cons c rest ih =>
      unfold trail
      by_cases hc : c = sep
      · rw [if_pos hc, List.mem_cons, Prod.mk.injEq, ih (by simp), hc]
        have hkey : dir ++ sep :: name ++ sep :: ([] ++ rest) =
            dir ++ sep :: (name ++ sep :: rest) := by simp
        rw [hkey]
        have hstep : Above sep dir (dir ++ sep :: name) := ⟨name, rfl⟩
        constructor
        · intro h
          rcases h with ⟨rfl, rfl⟩ | ⟨hn, hleads, hd⟩
          · exact ⟨hname, Or.inr ⟨rest, by simp⟩, Or.inl rfl⟩
          · refine ⟨hn, hleads, Or.inr ?_⟩
            rcases hd with rfl | hd
            · exact hstep
            · exact hstep.trans hd
        · intro h
          rcases h with ⟨hn, hleads, hd⟩
          have hfirst : Leads sep dir name (dir ++ sep :: (name ++ sep :: rest)) :=
            Or.inr ⟨rest, by simp⟩
          rcases hd with rfl | ⟨x, hx⟩
          · exact Or.inl ⟨rfl, hleads.unique hn hname hfirst⟩
          · refine Or.inr ⟨hn, hleads, ?_⟩
            rw [hx] at hleads ⊢
            rcases above_append_iff.mp hleads.above with ⟨t, ht⟩
            rcases Foundation.comparable ht.symm with heq | ⟨s, hs⟩ | hlt
            · exact Or.inl (by rw [heq])
            · exact absurd (by rw [hs]; simp) hname
            · exact Or.inr (above_append_iff.mpr hlt)
      · have hnew : sep ∉ name ++ [c] := by
          intro hmem
          rcases List.mem_append.mp hmem with h | h
          · exact hname h
          · exact hc (List.mem_singleton.mp h).symm
        rw [if_neg hc, ih hnew]
        simp [List.append_assoc]

/-!
# The last separator
-/

/-- A path split at its last separator. -/
def splitLast [DecidableEq alpha] (sep : alpha) (key : List alpha) :
    List alpha × List alpha :=
  (((key.reverse.dropWhile (fun c => decide (c ≠ sep))).drop 1).reverse,
    (key.reverse.takeWhile (fun c => decide (c ≠ sep))).reverse)

theorem splitLast_append [DecidableEq alpha] (h : sep ∉ name) :
    splitLast sep (dir ++ sep :: name) = (dir, name) := by
  have hname : forall c, c ∈ name.reverse -> decide (c ≠ sep) = true := by
    intro c hc
    rw [decide_eq_true_iff]
    intro heq
    rw [heq] at hc
    exact h (List.mem_reverse.mp hc)
  have hspell : (dir ++ sep :: name).reverse = name.reverse ++ sep :: dir.reverse := by
    rw [List.reverse_append, List.reverse_cons, List.append_assoc, List.singleton_append]
  unfold splitLast
  rw [hspell, List.dropWhile_append_of_pos hname, List.takeWhile_append_of_pos hname]
  simp

theorem exists_last [DecidableEq alpha] (h : sep ∈ key) :
    exists dir name, sep ∉ name ∧ key = dir ++ sep :: name := by
  rcases List.eq_append_cons_of_mem (List.mem_reverse.mpr h) with ⟨name, dir, hkey, hname⟩
  refine ⟨dir.reverse, name.reverse, fun hmem => hname (List.mem_reverse.mp hmem), ?_⟩
  have hrev := congrArg List.reverse hkey
  rw [List.reverse_reverse] at hrev
  rw [hrev, List.reverse_append, List.reverse_cons, List.append_assoc, List.singleton_append]

theorem splitLast_spec [DecidableEq alpha] (h : sep ∈ key) :
    key = (splitLast sep key).1 ++ sep :: (splitLast sep key).2 ∧
      sep ∉ (splitLast sep key).2 := by
  rcases exists_last h with ⟨dir, name, hname, rfl⟩
  rw [splitLast_append hname]
  exact ⟨rfl, hname⟩

theorem length_splitLast_lt [DecidableEq alpha] (h : sep ∈ key) :
    (splitLast sep key).1.length < key.length := by
  exact Above.length_lt ⟨_, (splitLast_spec h).1⟩

theorem splitLast_above [DecidableEq alpha] (h : sep ∈ key) :
    Above sep (splitLast sep key).1 key := ⟨_, (splitLast_spec h).1⟩

/-- Everything above a path is its parent or above it. -/
theorem Above.parent [DecidableEq alpha] (h : Above sep a key) :
    a = (splitLast sep key).1 ∨ Above sep a (splitLast sep key).1 := by
  have hmem : sep ∈ key := by
    rcases h with ⟨rest, hrest⟩
    rw [hrest]
    simp
  rcases exists_last hmem with ⟨dir, name, hname, rfl⟩
  rw [splitLast_append hname]
  rcases h.comparable ⟨name, rfl⟩ with heq | hlt | hgt
  · exact Or.inl heq
  · exact Or.inr hlt
  · rcases hgt with ⟨s, rfl⟩
    rcases above_append_iff.mp h with ⟨r, hr⟩
    exact absurd (by rw [hr]; simp) hname

end Foundation
end SharedMemoryFs
