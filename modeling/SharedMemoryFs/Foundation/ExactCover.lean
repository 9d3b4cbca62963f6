import Mathlib

/-!
# Exact covers

A multiset of owners covers a region exactly when every cell of the region is
covered by one owner, counted with multiplicity, and no owner reaches outside.
Counting makes ownership additive: handing a piece to a new owner adds one
summand, and giving it back removes one.
-/

namespace SharedMemoryFs
namespace Foundation

open Classical

/-- Every cell of {lit}`region` has one owner and every other cell none. -/
def ExactCover (cover : owner -> cell -> Prop) (region : cell -> Prop)
    (owners : Multiset owner) : Prop :=
  forall c, owners.countP (fun o => cover o c) = if region c then 1 else 0

namespace ExactCover

variable {owner : Type u} {cell : Type v} {cover : owner -> cell -> Prop}
  {region : cell -> Prop} {owners : Multiset owner}

theorem congr {region' : cell -> Prop} (h : ExactCover cover region owners)
    (hregion : forall c, region' c <-> region c) :
    ExactCover cover region' owners := by
  intro c
  rw [h c]
  by_cases hc : region c
  · rw [if_pos hc, if_pos ((hregion c).mpr hc)]
  · rw [if_neg hc, if_neg (fun h' => hc ((hregion c).mp h'))]

theorem nil (h : forall c, ¬ region c) :
    ExactCover cover region (0 : Multiset owner) := by
  intro c
  rw [Multiset.countP_zero, if_neg (h c)]

theorem region_of_mem (h : ExactCover cover region owners) {o : owner}
    (ho : o ∈ owners) {c : cell} (hc : cover o c) : region c := by
  by_contra hout
  have hcount := h c
  rw [if_neg hout, Multiset.countP_eq_zero] at hcount
  exact hcount o ho hc

theorem exists_owner (h : ExactCover cover region owners) {c : cell}
    (hc : region c) : exists o, o ∈ owners ∧ cover o c := by
  have hcount := h c
  rw [if_pos hc] at hcount
  have hpos : 0 < owners.countP (fun o => cover o c) := by omega
  rcases Multiset.countP_pos.mp hpos with ⟨o, ho, hcover⟩
  exact ⟨o, ho, hcover⟩

theorem region_iff (h : ExactCover cover region owners) {c : cell} :
    region c <-> exists o, o ∈ owners ∧ cover o c := by
  constructor
  · exact h.exists_owner
  · intro hex
    rcases hex with ⟨o, ho, hcover⟩
    exact h.region_of_mem ho hcover

/-- A piece outside the region may be handed to a new owner. -/
theorem add (h : ExactCover cover region owners) {o : owner}
    (hout : forall c, cover o c -> ¬ region c) :
    ExactCover cover (fun c => region c ∨ cover o c) (owners + {o}) := by
  intro c
  rw [Multiset.countP_add, h c, ← Multiset.cons_zero]
  by_cases hc : cover o c
  · rw [Multiset.countP_cons_of_pos (p := fun o => cover o c) 0 hc,
      Multiset.countP_zero, if_neg (hout c hc), if_pos (Or.inr hc)]
  · rw [Multiset.countP_cons_of_neg (p := fun o => cover o c) 0 hc,
      Multiset.countP_zero]
    by_cases hr : region c
    · rw [if_pos hr, if_pos (Or.inl hr)]
    · rw [if_neg hr, if_neg (fun h' => h'.elim hr hc)]

/-- An owner gives its piece back. -/
theorem remove {o : owner} (h : ExactCover cover region (owners + {o})) :
    ExactCover cover (fun c => region c ∧ ¬ cover o c) owners := by
  intro c
  have hcount := h c
  rw [Multiset.countP_add, ← Multiset.cons_zero] at hcount
  by_cases hc : cover o c
  · have hr : region c := h.region_of_mem (by simp) hc
    rw [Multiset.countP_cons_of_pos (p := fun o => cover o c) 0 hc,
      Multiset.countP_zero, if_pos hr] at hcount
    rw [if_neg (fun h' => h'.2 hc)]
    omega
  · rw [Multiset.countP_cons_of_neg (p := fun o => cover o c) 0 hc,
      Multiset.countP_zero, add_zero] at hcount
    rw [hcount]
    by_cases hr : region c
    · rw [if_pos hr, if_pos ⟨hr, hc⟩]
    · rw [if_neg hr, if_neg (fun h' => hr h'.1)]

/-- Two owners, counted with multiplicity, never share a cell. -/
theorem disjoint {o o' : owner}
    (h : ExactCover cover region (owners + {o} + {o'})) {c : cell}
    (hc : cover o c) : ¬ cover o' c := by
  intro hc'
  have hr := (h.remove).region_of_mem (o := o) (by simp) hc
  exact hr.2 hc'

theorem disjoint_of_mem {others : Multiset owner} {o o' : owner}
    (h : ExactCover cover region (owners + others)) (ho : o ∈ owners) (ho' : o' ∈ others)
    {c : cell} (hc : cover o c) : ¬ cover o' c := by
  rcases Multiset.exists_cons_of_mem ho with ⟨s, hs⟩
  rcases Multiset.exists_cons_of_mem ho' with ⟨t, ht⟩
  have hsplit : owners + others = s + t + {o} + {o'} := by
    rw [hs, ht, ← Multiset.singleton_add, ← Multiset.singleton_add]
    abel
  rw [hsplit] at h
  exact h.disjoint hc

/-- Listed owners share no cell pairwise. -/
theorem pairwise {listed : List owner}
    (h : ExactCover cover region (owners + (listed : Multiset owner))) :
    listed.Pairwise (fun o o' => forall c, cover o c -> ¬ cover o' c) := by
  induction listed generalizing owners with
  | nil => exact List.Pairwise.nil
  | cons o rest ih =>
      have hsplit : owners + ((o :: rest : List owner) : Multiset owner) =
          owners + {o} + (rest : Multiset owner) := by
        rw [← Multiset.cons_coe, ← Multiset.singleton_add, add_assoc]
      rw [hsplit] at h
      apply List.Pairwise.cons
      · intro o' ho' c hc
        exact h.disjoint_of_mem (by simp) (Multiset.mem_coe.mpr ho') hc
      · exact ih h

end ExactCover
end Foundation
end SharedMemoryFs
