import Mathlib

/-!
# Sorted lists of free spans

A free list over a line of bytes: nonempty spans, sorted, with a gap between
any two neighbours.  The two edits an allocator makes are carving the front of
one span and inserting a span while merging it with its neighbours.  Each has
a specification by the set of bytes it covers, so that callers never look at
list positions.
-/

namespace SharedMemoryFs
namespace Foundation

structure Span where
  offset : Nat
  length : Nat
deriving DecidableEq, Repr

namespace Span

def stop (s : Span) : Nat := s.offset + s.length

def Covers (s : Span) (b : Nat) : Prop := s.offset ≤ b ∧ b < s.stop

instance (s : Span) (b : Nat) : Decidable (s.Covers b) :=
  inferInstanceAs (Decidable (_ ∧ _))

theorem covers_offset {s : Span} (h : 0 < s.length) : s.Covers s.offset := by
  unfold Covers stop
  omega

/-- Nonempty spans without a common byte lie on either side of each other. -/
theorem before_or_after {s t : Span} (hs : 0 < s.length) (ht : 0 < t.length)
    (h : forall b, s.Covers b -> ¬ t.Covers b) :
    s.stop ≤ t.offset ∨ t.stop ≤ s.offset := by
  have hmax := h (max s.offset t.offset)
  unfold Covers stop at *
  omega

end Span

def Covered (spans : List Span) (b : Nat) : Prop :=
  exists s, s ∈ spans ∧ s.Covers b

theorem covered_append {xs ys : List Span} {b : Nat} :
    Covered (xs ++ ys) b <-> Covered xs b ∨ Covered ys b := by
  unfold Covered
  simp only [List.mem_append, or_and_right, exists_or]

theorem covered_cons {s : Span} {spans : List Span} {b : Nat} :
    Covered (s :: spans) b <-> s.Covers b ∨ Covered spans b := by
  unfold Covered
  simp only [List.mem_cons, or_and_right, exists_or, exists_eq_left]

@[simp] theorem not_covered_nil {b : Nat} : ¬ Covered [] b := by
  intro h
  rcases h with ⟨s, hs, _⟩
  cases hs

/-- Sorted nonempty spans with a gap between neighbours. -/
def Separated (spans : List Span) : Prop :=
  spans.Pairwise (fun s t => s.stop < t.offset) ∧
    forall s, s ∈ spans -> 0 < s.length

def Below (hi : Nat) (spans : List Span) : Prop :=
  forall s, s ∈ spans -> s.stop ≤ hi

def totalLength (spans : List Span) : Nat := (spans.map Span.length).sum

theorem separated_append {xs ys : List Span} :
    Separated (xs ++ ys) <->
      Separated xs ∧ Separated ys ∧
        forall s, s ∈ xs -> forall t, t ∈ ys -> s.stop < t.offset := by
  unfold Separated
  rw [List.pairwise_append]
  simp only [List.mem_append, or_imp, forall_and]
  constructor
  · intro h
    exact ⟨⟨h.1.1, h.2.1⟩, ⟨h.1.2.1, h.2.2⟩, h.1.2.2⟩
  · intro h
    exact ⟨⟨h.1.1, h.2.1.1, h.2.2⟩, h.1.2, h.2.1.2⟩

theorem separated_cons {s : Span} {spans : List Span} :
    Separated (s :: spans) <->
      0 < s.length ∧ Separated spans ∧
        forall t, t ∈ spans -> s.stop < t.offset := by
  unfold Separated
  rw [List.pairwise_cons]
  simp only [List.mem_cons, forall_eq_or_imp]
  constructor
  · intro h
    exact ⟨h.2.1, ⟨h.1.2, h.2.2⟩, h.1.1⟩
  · intro h
    exact ⟨⟨h.2.2, h.2.1.1⟩, h.1, h.2.1.2⟩

theorem Separated.sublist {xs ys : List Span} (h : Separated ys)
    (hsub : xs.Sublist ys) : Separated xs :=
  ⟨h.1.sublist hsub, fun s hs => h.2 s (hsub.subset hs)⟩

theorem offset_le_of_covered {s : Span} {spans : List Span} (h : Separated (s :: spans)) {b : Nat}
    (hb : Covered (s :: spans) b) : s.offset ≤ b := by
  rcases covered_cons.mp hb with hs | ⟨t, ht, htb⟩
  · exact hs.1
  · have hgap := (separated_cons.mp h).2.2 t ht
    unfold Span.stop at hgap
    have hle := htb.1
    omega

theorem not_covered_stop {s : Span} {spans : List Span} (h : Separated (s :: spans)) :
    ¬ Covered (s :: spans) s.stop := by
  intro hb
  rcases covered_cons.mp hb with hs | ⟨t, ht, htb⟩
  · exact lt_irrefl _ hs.2
  · exact absurd htb.1 (not_le.mpr ((separated_cons.mp h).2.2 t ht))

theorem covered_tail {s : Span} {spans : List Span} (h : Separated (s :: spans)) {b : Nat} :
    Covered spans b <-> Covered (s :: spans) b ∧ ¬ s.Covers b := by
  rw [covered_cons]
  constructor
  · intro hb
    refine ⟨Or.inr hb, ?_⟩
    intro hs
    rcases hb with ⟨t, ht, htb⟩
    have hgap := (separated_cons.mp h).2.2 t ht
    exact absurd (htb.1.trans hs.2.le) (not_le.mpr hgap)
  · intro hb
    rcases hb.1 with hs | ht
    · exact absurd hs hb.2
    · exact ht

/-- The bytes decide the spans: separated lists that cover the same bytes are equal. -/
theorem Separated.unique {xs ys : List Span} (hxs : Separated xs) (hys : Separated ys)
    (h : forall b, Covered xs b <-> Covered ys b) : xs = ys := by
  induction xs generalizing ys with
  | nil =>
      cases ys with
      | nil => rfl
      | cons t ys =>
          have hfirst : Covered (t :: ys) t.offset :=
            covered_cons.mpr (Or.inl (Span.covers_offset (separated_cons.mp hys).1))
          exact absurd ((h _).mpr hfirst) not_covered_nil
  | cons s xs ih =>
      have hs : Covered (s :: xs) s.offset :=
        covered_cons.mpr (Or.inl (Span.covers_offset (separated_cons.mp hxs).1))
      cases ys with
      | nil => exact absurd ((h _).mp hs) not_covered_nil
      | cons t ys =>
          have ht : Covered (t :: ys) t.offset :=
            covered_cons.mpr (Or.inl (Span.covers_offset (separated_cons.mp hys).1))
          have hoffset : s.offset = t.offset :=
            le_antisymm (offset_le_of_covered hxs ((h _).mpr ht))
              (offset_le_of_covered hys ((h _).mp hs))
          have hstop : s.stop = t.stop := by
            rcases Nat.lt_trichotomy s.stop t.stop with hlt | heq | hlt
            · have hin : t.Covers s.stop :=
                ⟨hoffset ▸ Nat.le_add_right s.offset s.length, hlt⟩
              exact absurd ((h _).mpr (covered_cons.mpr (Or.inl hin))) (not_covered_stop hxs)
            · exact heq
            · have hin : s.Covers t.stop :=
                ⟨hoffset.symm ▸ Nat.le_add_right t.offset t.length, hlt⟩
              exact absurd ((h _).mp (covered_cons.mpr (Or.inl hin))) (not_covered_stop hys)
          have heq : s = t := by
            cases s
            cases t
            unfold Span.stop at hstop
            simp only at hoffset hstop
            rw [Span.mk.injEq]
            omega
          rw [heq] at hxs h ⊢
          rw [ih (separated_cons.mp hxs).2.1 (separated_cons.mp hys).2.1 (fun b => by
            rw [covered_tail hxs, covered_tail hys, h b])]

/-- A covered interval lies within one span: there is a gap behind each. -/
theorem span_of_covered {spans : List Span} (h : Separated spans) {lo hi : Nat}
    (hlt : lo < hi) (hcov : forall b, lo ≤ b -> b < hi -> Covered spans b) :
    exists s, s ∈ spans ∧ s.offset ≤ lo ∧ hi ≤ s.stop := by
  rcases hcov lo le_rfl hlt with ⟨s, hs, hslo⟩
  refine ⟨s, hs, hslo.1, ?_⟩
  by_contra hshort
  rcases hcov s.stop hslo.2.le (not_le.mp hshort) with ⟨t, ht, htstop⟩
  rcases List.append_of_mem hs with ⟨before, after, hsplit⟩
  rw [hsplit] at h ht
  rcases separated_append.mp h with ⟨_, hmid, hcross⟩
  rcases separated_cons.mp hmid with ⟨_, _, hgap⟩
  rcases List.mem_append.mp ht with ht | ht
  · have hback : t.stop < s.stop :=
      (hcross t ht s List.mem_cons_self).trans_le (Nat.le_add_right _ _)
    exact absurd htstop.2 (not_lt.mpr hback.le)
  · rcases List.mem_cons.mp ht with heq | ht
    · rw [heq] at htstop
      exact lt_irrefl _ htstop.2
    · exact absurd htstop.1 (not_le.mpr (hgap t ht))

/-!
# Total length against coverage

Between two bounds, the total length of a separated list is the full distance
exactly when every byte in between is covered.
-/

theorem totalLength_le {spans : List Span} {lo hi : Nat}
    (hsep : Separated spans) (hlo : forall s, s ∈ spans -> lo ≤ s.offset)
    (hbelow : Below hi spans) (hle : lo ≤ hi) :
    lo + totalLength spans ≤ hi := by
  induction spans generalizing lo with
  | nil => simpa [totalLength] using hle
  | cons s rest ih =>
      rcases separated_cons.mp hsep with ⟨_, hrest, hgap⟩
      have hs : lo ≤ s.offset := hlo s List.mem_cons_self
      have hstop : s.stop ≤ hi := hbelow s List.mem_cons_self
      have htail : s.stop + totalLength rest ≤ hi :=
        ih hrest (fun t ht => (hgap t ht).le)
          (fun t ht => hbelow t (List.mem_cons_of_mem s ht)) hstop
      have htotal : totalLength (s :: rest) = s.length + totalLength rest := by
        simp [totalLength]
      unfold Span.stop at *
      omega

theorem covered_of_totalLength {spans : List Span} {lo hi : Nat}
    (hsep : Separated spans) (hlo : forall s, s ∈ spans -> lo ≤ s.offset)
    (hbelow : Below hi spans) (htotal : lo + totalLength spans = hi)
    {b : Nat} (hb : lo ≤ b) (hb' : b < hi) : Covered spans b := by
  induction spans generalizing lo with
  | nil =>
      simp [totalLength] at htotal
      omega
  | cons s rest ih =>
      rcases separated_cons.mp hsep with ⟨_, hrest, hgap⟩
      have hs : lo ≤ s.offset := hlo s List.mem_cons_self
      have hstop : s.stop ≤ hi := hbelow s List.mem_cons_self
      have hbelowRest : Below hi rest :=
        fun t ht => hbelow t (List.mem_cons_of_mem s ht)
      have hloRest : forall t, t ∈ rest -> s.stop ≤ t.offset :=
        fun t ht => (hgap t ht).le
      have htail : s.stop + totalLength rest ≤ hi :=
        totalLength_le hrest hloRest hbelowRest hstop
      have hsum : totalLength (s :: rest) = s.length + totalLength rest := by
        simp [totalLength]
      -- The bound is tight, so neither a gap before `s` nor one after it fits.
      have htight : s.offset = lo ∧ s.stop + totalLength rest = hi := by
        unfold Span.stop at *
        omega
      by_cases hin : b < s.stop
      · exact covered_cons.mpr (Or.inl ⟨by omega, hin⟩)
      · exact covered_cons.mpr
          (Or.inr (ih hrest hloRest hbelowRest htight.2 (by omega)))

theorem totalLength_of_covered {spans : List Span} {lo hi : Nat}
    (hsep : Separated spans) (hlo : forall s, s ∈ spans -> lo ≤ s.offset)
    (hbelow : Below hi spans) (hle : lo ≤ hi)
    (hcov : forall b, lo ≤ b -> b < hi -> Covered spans b) :
    lo + totalLength spans = hi := by
  induction spans generalizing lo with
  | nil =>
      by_cases hlt : lo < hi
      · exact absurd (hcov lo le_rfl hlt) not_covered_nil
      · simp [totalLength]
        omega
  | cons s rest ih =>
      rcases separated_cons.mp hsep with ⟨hpos, hrest, hgap⟩
      have hs : lo ≤ s.offset := hlo s List.mem_cons_self
      have hstop : s.stop ≤ hi := hbelow s List.mem_cons_self
      have hstart : s.offset = lo := by
        by_contra hne
        have hlt : lo < hi := by
          unfold Span.stop at hstop
          omega
        rcases covered_cons.mp (hcov lo le_rfl hlt) with hhead | htail
        · exact hne (le_antisymm hhead.1 hs)
        · rcases htail with ⟨t, ht, hcovers⟩
          have hafter := hgap t ht
          unfold Span.Covers Span.stop at *
          omega
      have htail : s.stop + totalLength rest = hi := by
        refine ih hrest (fun t ht => (hgap t ht).le)
          (fun t ht => hbelow t (List.mem_cons_of_mem s ht)) hstop ?_
        intro b hb hb'
        have hlob : lo ≤ b := by
          unfold Span.stop at hb
          omega
        rcases covered_cons.mp (hcov b hlob hb') with hhead | hcovered
        · exact absurd hhead.2 (by omega)
        · exact hcovered
      have hsum : totalLength (s :: rest) = s.length + totalLength rest := by
        simp [totalLength]
      unfold Span.stop at *
      omega

/-!
# Carving the front of one span
-/

def carve (spans : List Span) (index size : Nat) : List Span :=
  match spans[index]? with
  | none => spans
  | some s =>
      if s.length = size then spans.eraseIdx index
      else spans.set index ⟨s.offset + size, s.length - size⟩

theorem split_at {spans : List Span} {index : Nat} {s : Span}
    (h : spans[index]? = some s) :
    spans = spans.take index ++ s :: spans.drop (index + 1) := by
  rcases List.getElem?_eq_some_iff.mp h with ⟨hlt, hget⟩
  rw [← hget, List.cons_getElem_drop_succ, List.take_append_drop]

theorem carve_eq {spans : List Span} {index size : Nat} {s : Span}
    (h : spans[index]? = some s) :
    carve spans index size =
      spans.take index ++
        ((if s.length = size then [] else [⟨s.offset + size, s.length - size⟩]) ++
          spans.drop (index + 1)) := by
  rcases List.getElem?_eq_some_iff.mp h with ⟨hlt, _⟩
  simp only [carve, h]
  by_cases hsize : s.length = size
  · rw [if_pos hsize, if_pos hsize, List.eraseIdx_eq_take_drop_succ]
    rfl
  · rw [if_neg hsize, if_neg hsize, List.set_eq_take_append_cons_drop, if_pos hlt]
    rfl

theorem separated_carve {spans : List Span} {index size : Nat} {s : Span}
    (hsep : Separated spans) (h : spans[index]? = some s)
    (hsize : size ≤ s.length) : Separated (carve spans index size) := by
  rw [split_at h] at hsep
  rcases separated_append.mp hsep with ⟨hleft, hmid, hcross⟩
  rcases separated_cons.mp hmid with ⟨_, hright, hgap⟩
  have hleftRight : forall a, a ∈ spans.take index ->
      forall c, c ∈ spans.drop (index + 1) -> a.stop < c.offset :=
    fun a ha c hc => hcross a ha c (List.mem_cons_of_mem s hc)
  rw [carve_eq h]
  by_cases hexact : s.length = size
  · rw [if_pos hexact]
    exact separated_append.mpr ⟨hleft, hright, hleftRight⟩
  · rw [if_neg hexact]
    refine separated_append.mpr ⟨hleft, separated_cons.mpr ⟨?_, hright, ?_⟩, ?_⟩
    · show 0 < s.length - size
      omega
    · intro c hc
      have hafter := hgap c hc
      unfold Span.stop at *
      show s.offset + size + (s.length - size) < c.offset
      omega
    · intro a ha c hc
      rcases List.mem_cons.mp hc with heq | hc
      · have hbefore := hcross a ha s List.mem_cons_self
        rw [heq]
        show a.stop < s.offset + size
        omega
      · exact hleftRight a ha c hc

theorem covered_carve {spans : List Span} {index size : Nat} {s : Span}
    (hsep : Separated spans) (h : spans[index]? = some s)
    (hsize : size ≤ s.length) {b : Nat} :
    Covered (carve spans index size) b <->
      Covered spans b ∧ ¬ (Span.mk s.offset size).Covers b := by
  rw [split_at h] at hsep
  rcases separated_append.mp hsep with ⟨_, hmid, hcross⟩
  rcases separated_cons.mp hmid with ⟨_, _, hgap⟩
  have hleftOut : Covered (spans.take index) b ->
      ¬ (Span.mk s.offset size).Covers b := by
    intro hcov hin
    rcases hcov with ⟨a, ha, hcovers⟩
    have hbefore := hcross a ha s List.mem_cons_self
    unfold Span.Covers Span.stop at *
    simp only at hin
    omega
  have hrightOut : Covered (spans.drop (index + 1)) b ->
      ¬ (Span.mk s.offset size).Covers b := by
    intro hcov hin
    rcases hcov with ⟨c, hc, hcovers⟩
    have hafter := hgap c hc
    unfold Span.Covers Span.stop at *
    simp only at hin
    omega
  have hold : Covered spans b <->
      Covered (spans.take index) b ∨ s.Covers b ∨
        Covered (spans.drop (index + 1)) b := by
    conv_lhs => rw [split_at h]
    rw [covered_append, covered_cons]
  have hkept : Covered
        (if s.length = size then [] else [⟨s.offset + size, s.length - size⟩]) b <->
      s.Covers b ∧ ¬ (Span.mk s.offset size).Covers b := by
    by_cases hexact : s.length = size
    · rw [if_pos hexact]
      unfold Span.Covers Span.stop
      simp [hexact]
    · rw [if_neg hexact, covered_cons]
      unfold Span.Covers Span.stop
      simp only [not_covered_nil, or_false]
      omega
  rw [carve_eq h, covered_append, covered_append, hold, hkept]
  constructor
  · intro hcov
    rcases hcov with hleft | hmid | hright
    · exact ⟨Or.inl hleft, hleftOut hleft⟩
    · exact ⟨Or.inr (Or.inl hmid.1), hmid.2⟩
    · exact ⟨Or.inr (Or.inr hright), hrightOut hright⟩
  · intro hcov
    rcases hcov with ⟨hleft | hmid | hright, hout⟩
    · exact Or.inl hleft
    · exact Or.inr (Or.inl ⟨hmid, hout⟩)
    · exact Or.inr (Or.inr hright)

theorem below_carve {spans : List Span} {index size hi : Nat} {s : Span}
    (hbelow : Below hi spans) (h : spans[index]? = some s)
    (hsize : size ≤ s.length) : Below hi (carve spans index size) := by
  have hmem : s ∈ spans := List.mem_of_getElem? h
  intro t ht
  rw [carve_eq h] at ht
  rcases List.mem_append.mp ht with hleft | ht
  · exact hbelow t (List.mem_of_mem_take hleft)
  rcases List.mem_append.mp ht with hmid | hright
  · by_cases hexact : s.length = size
    · rw [if_pos hexact] at hmid
      cases hmid
    · rw [if_neg hexact] at hmid
      have hs := hbelow s hmem
      rw [List.mem_singleton.mp hmid]
      unfold Span.stop at *
      show s.offset + size + (s.length - size) ≤ hi
      omega
  · exact hbelow t (List.mem_of_mem_drop hright)

/-!
# Inserting a span and merging it with its neighbours

The insertion point is given as a cursor: the spans before it and the spans
after it.
-/

def mergeNext (current : Span) : List Span -> Span × List Span
  | [] => (current, [])
  | next :: rest =>
      if current.stop = next.offset then
        (⟨current.offset, current.length + next.length⟩, rest)
      else (current, next :: rest)

def mergePrev (before : List Span) (current : Span) : List Span × Span :=
  match before.getLast? with
  | none => (before, current)
  | some prev =>
      if prev.stop = current.offset then
        (before.dropLast, ⟨prev.offset, prev.length + current.length⟩)
      else (before, current)

def mergeSiblings (before : List Span) (current : Span) (after : List Span) :
    List Span :=
  let next := mergeNext current after
  let prev := mergePrev before next.1
  prev.1 ++ prev.2 :: next.2

def insertMerged (spans : List Span) (current : Span) : List Span :=
  mergeSiblings (spans.takeWhile (fun s => decide (s.offset ≤ current.offset)))
    current (spans.dropWhile (fun s => decide (s.offset ≤ current.offset)))

structure NextSpec (current : Span) (after : List Span)
    (result : Span × List Span) : Prop where
  offset : result.1.offset = current.offset
  grows : current.length ≤ result.1.length
  suffix : result.2.Sublist after
  gap : forall t, t ∈ result.2 -> result.1.stop < t.offset
  covered : forall b, result.1.Covers b ∨ Covered result.2 b <->
    current.Covers b ∨ Covered after b
  below : forall hi, current.stop ≤ hi -> Below hi after -> result.1.stop ≤ hi

theorem mergeNext_spec {current : Span} {after : List Span}
    (hsep : Separated after)
    (hafter : forall t, t ∈ after -> current.stop ≤ t.offset) :
    NextSpec current after (mergeNext current after) := by
  cases after with
  | nil =>
      exact
        { offset := rfl
          grows := le_rfl
          suffix := List.Sublist.refl []
          gap := fun t ht => by cases ht
          covered := fun b => Iff.rfl
          below := fun hi h _ => h }
  | cons next rest =>
      rcases separated_cons.mp hsep with ⟨_, _, hgap⟩
      have hnext := hafter next List.mem_cons_self
      show NextSpec current (next :: rest)
        (if current.stop = next.offset then
          (⟨current.offset, current.length + next.length⟩, rest)
        else (current, next :: rest))
      by_cases hadj : current.stop = next.offset
      · rw [if_pos hadj]
        have hstop : (Span.mk current.offset (current.length + next.length)).stop =
            next.stop := by
          unfold Span.stop at *
          simp only
          omega
        exact
          { offset := rfl
            grows := Nat.le_add_right _ _
            suffix := List.sublist_cons_self next rest
            gap := by
              intro t ht
              rw [hstop]
              exact hgap t ht
            covered := by
              intro b
              rw [covered_cons]
              unfold Span.Covers
              rw [hstop, ← or_assoc]
              apply or_congr_left
              unfold Span.stop at *
              simp only
              omega
            below := by
              intro hi _ hbelow
              rw [hstop]
              exact hbelow next List.mem_cons_self }
      · rw [if_neg hadj]
        have hlt : current.stop < next.offset := lt_of_le_of_ne hnext hadj
        exact
          { offset := rfl
            grows := le_rfl
            suffix := List.Sublist.refl _
            gap := by
              intro t ht
              rcases List.mem_cons.mp ht with heq | hrest
              · rw [heq]
                exact hlt
              · exact lt_trans hlt (lt_of_le_of_lt (Nat.le_add_right _ _) (hgap t hrest))
            covered := fun b => Iff.rfl
            below := fun hi h _ => h }

structure PrevSpec (before : List Span) (current : Span)
    (result : List Span × Span) : Prop where
  stop : result.2.stop = current.stop
  grows : current.length ≤ result.2.length
  suffix : result.1.Sublist before
  gap : forall s, s ∈ result.1 -> s.stop < result.2.offset
  covered : forall b, Covered result.1 b ∨ result.2.Covers b <->
    Covered before b ∨ current.Covers b

theorem mergePrev_spec {before : List Span} {current : Span}
    (hsep : Separated before)
    (hbefore : forall s, s ∈ before -> s.stop ≤ current.offset) :
    PrevSpec before current (mergePrev before current) := by
  rcases List.eq_nil_or_concat' before with hnil | ⟨front, prev, hconcat⟩
  · subst hnil
    exact
      { stop := rfl
        grows := le_rfl
        suffix := List.Sublist.refl []
        gap := fun s hs => by cases hs
        covered := fun b => Iff.rfl }
  · subst hconcat
    rcases separated_append.mp hsep with ⟨_, _, hcross⟩
    have hprev := hbefore prev (by simp)
    unfold mergePrev
    rw [List.getLast?_concat]
    simp only [List.dropLast_concat]
    by_cases hadj : prev.stop = current.offset
    · rw [if_pos hadj]
      have hstop : (Span.mk prev.offset (prev.length + current.length)).stop =
          current.stop := by
        unfold Span.stop at *
        simp only
        omega
      exact
        { stop := hstop
          grows := Nat.le_add_left _ _
          suffix := List.sublist_append_left front [prev]
          gap := fun s hs => hcross s hs prev (by simp)
          covered := by
            intro b
            rw [covered_append, covered_cons, or_assoc]
            apply or_congr_right
            unfold Span.Covers
            rw [hstop]
            unfold Span.stop at *
            simp only [not_covered_nil, or_false]
            omega }
    · rw [if_neg hadj]
      have hlt : prev.stop < current.offset := lt_of_le_of_ne hprev hadj
      exact
        { stop := rfl
          grows := le_rfl
          suffix := List.Sublist.refl _
          gap := by
            intro s hs
            rcases List.mem_append.mp hs with hfront | hlast
            · exact lt_trans (hcross s hfront prev (by simp))
                (lt_of_le_of_lt (Nat.le_add_right _ _) hlt)
            · rw [List.mem_singleton.mp hlast]
              exact hlt
          covered := fun b => Iff.rfl }

/-- What inserting a span disjoint from the list leaves behind. -/
structure InsertSpec (spans : List Span) (current : Span)
    (result : List Span) : Prop where
  separated : Separated result
  covered : forall b, Covered result b <-> Covered spans b ∨ current.Covers b
  below : forall hi, Below hi spans -> current.stop ≤ hi -> Below hi result

theorem mergeSiblings_spec (before after : List Span) (current : Span)
    (hsep : Separated (before ++ after)) (hpos : 0 < current.length)
    (hbefore : forall s, s ∈ before -> s.stop ≤ current.offset)
    (hafter : forall t, t ∈ after -> current.stop ≤ t.offset) :
    InsertSpec (before ++ after) current (mergeSiblings before current after) := by
  rcases separated_append.mp hsep with ⟨hsepBefore, hsepAfter, hcross⟩
  have hnext := mergeNext_spec hsepAfter hafter
  have hprev : PrevSpec before (mergeNext current after).1
      (mergePrev before (mergeNext current after).1) := by
    refine mergePrev_spec hsepBefore ?_
    intro s hs
    rw [hnext.offset]
    exact hbefore s hs
  have hlen : 0 < (mergePrev before (mergeNext current after).1).2.length :=
    lt_of_lt_of_le hpos (le_trans hnext.grows hprev.grows)
  constructor
  · refine separated_append.mpr
      ⟨hsepBefore.sublist hprev.suffix,
        separated_cons.mpr ⟨hlen, hsepAfter.sublist hnext.suffix, ?_⟩, ?_⟩
    · intro t ht
      rw [hprev.stop]
      exact hnext.gap t ht
    · intro s hs t ht
      rcases List.mem_cons.mp ht with heq | ht
      · rw [heq]
        exact hprev.gap s hs
      · exact hcross s (hprev.suffix.subset hs) t (hnext.suffix.subset ht)
  · intro b
    have hcovNext := hnext.covered b
    have hcovPrev := hprev.covered b
    unfold mergeSiblings
    rw [covered_append, covered_cons, covered_append, ← or_assoc, hcovPrev, or_assoc,
      hcovNext, or_assoc, or_comm (a := current.Covers b)]
  · intro hi hbelow hstop s hs
    rcases List.mem_append.mp hs with hleft | hs
    · exact hbelow s (List.mem_append_left _ (hprev.suffix.subset hleft))
    rcases List.mem_cons.mp hs with heq | hright
    · rw [heq, hprev.stop]
      exact hnext.below hi hstop (fun t ht => hbelow t (List.mem_append_right _ ht))
    · exact hbelow s (List.mem_append_right _ (hnext.suffix.subset hright))

theorem insertMerged_spec {spans : List Span} (current : Span)
    (hsep : Separated spans) (hpos : 0 < current.length)
    (hfree : forall b, current.Covers b -> ¬ Covered spans b) :
    InsertSpec spans current (insertMerged spans current) := by
  have hsides : forall s, s ∈ spans ->
      s.stop ≤ current.offset ∨ current.stop ≤ s.offset := by
    intro s hs
    refine Span.before_or_after (hsep.2 s hs) hpos ?_
    intro b hsb hcb
    exact hfree b hcb ⟨s, hs, hsb⟩
  have happend : spans.takeWhile (fun s => decide (s.offset ≤ current.offset)) ++
      spans.dropWhile (fun s => decide (s.offset ≤ current.offset)) = spans :=
    List.takeWhile_append_dropWhile
  have hspec := mergeSiblings_spec
    (spans.takeWhile (fun s => decide (s.offset ≤ current.offset)))
    (spans.dropWhile (fun s => decide (s.offset ≤ current.offset)))
    current (by rw [happend]; exact hsep) hpos ?_ ?_
  · rw [happend] at hspec
    exact hspec
  · intro s hs
    have hle : s.offset ≤ current.offset := by
      simpa using List.mem_takeWhile_imp hs
    rcases hsides s (List.takeWhile_subset _ hs) with hbefore | hafter
    · exact hbefore
    · unfold Span.stop at hafter
      omega
  · -- The first span past the cursor starts after `current`; sortedness carries
    -- that to every later one.
    intro t ht
    have hgt : current.offset < t.offset := by
      cases hdrop : spans.dropWhile (fun s => decide (s.offset ≤ current.offset)) with
      | nil =>
          rw [hdrop] at ht
          cases ht
      | cons head rest =>
          have hhead : current.offset < head.offset := by
            have hnot := List.head?_dropWhile_not
              (fun s : Span => decide (s.offset ≤ current.offset)) spans
            rw [hdrop] at hnot
            simpa using hnot
          have hsepDrop : Separated (head :: rest) := by
            rw [← hdrop]
            exact hsep.sublist (List.dropWhile_sublist _)
          rw [hdrop] at ht
          rcases List.mem_cons.mp ht with heq | hrest
          · rw [heq]
            exact hhead
          · have hfar := (separated_cons.mp hsepDrop).2.2 t hrest
            unfold Span.stop at hfar
            omega
    have hmem : t ∈ spans := (List.dropWhile_sublist _).subset ht
    rcases hsides t hmem with hbefore | hafter
    · have htpos := hsep.2 t hmem
      unfold Span.stop at hbefore
      omega
    · exact hafter

end Foundation
end SharedMemoryFs
