import Mathlib.Algebra.BigOperators.Group.Finset.Basic

/-!
# Surpluses

Two lists may hold the same elements, and hold some of them more than once.  The
surplus of one list are the elements that it holds more often than the other one.

In a commutative group the sums over both lists differ by those over the surpluses,
as long as no element is held more than once more often.
-/

namespace Peerbit
namespace Lib

universe u v

section Surplus

variable {α : Type u} [DecidableEq α]

/-- What the first list holds more often than the second one. -/
def surplus (l l' : List α) : List α :=
  (l.filter (fun a => decide (l'.count a < l.count a))).dedup

/-- No element is held more than once more often by one of the lists. -/
def EvenlyHeld (l l' : List α) : Prop :=
  ∀ a, l.count a ≤ l'.count a + 1 ∧ l'.count a ≤ l.count a + 1

variable {l l' : List α} {a : α}

theorem mem_surplus : a ∈ surplus l l' ↔ l'.count a < l.count a := by
  rw [surplus, List.mem_dedup, List.mem_filter, decide_eq_true_eq]
  refine and_iff_right_of_imp fun h => List.count_pos_iff.mp ?_
  omega

theorem nodup_surplus (l l' : List α) : (surplus l l').Nodup :=
  List.nodup_dedup _

/-- An element is in one of the surpluses only. -/
theorem not_mem_surplus_of_mem (h : a ∈ surplus l l') : a ∉ surplus l' l := by
  rw [mem_surplus] at h ⊢
  omega

theorem surplus_subset (l l' : List α) : surplus l l' ⊆ l := by
  intro a h
  rw [mem_surplus] at h
  exact List.count_pos_iff.mp (by omega)

/-- Lists without repetitions are balanced. -/
theorem evenlyHeld_of_nodup (hl : l.Nodup) (hl' : l'.Nodup) : EvenlyHeld l l' := by
  intro a
  have hle := List.nodup_iff_count_le_one.mp hl a
  have hle' := List.nodup_iff_count_le_one.mp hl' a
  omega

/-- What one of the lists holds more often than the other one. -/
def differing (l l' : List α) : Finset α :=
  (surplus l l').toFinset ∪ (surplus l' l).toFinset

theorem mem_differing : a ∈ differing l l' ↔ l.count a ≠ l'.count a := by
  rw [differing, Finset.mem_union, List.mem_toFinset, List.mem_toFinset, mem_surplus,
    mem_surplus]
  omega

theorem disjoint_surplus (l l' : List α) :
    Disjoint (surplus l l').toFinset (surplus l' l).toFinset := by
  rw [Finset.disjoint_left]
  intro a ha ha'
  exact not_mem_surplus_of_mem (List.mem_toFinset.mp ha) (List.mem_toFinset.mp ha')

variable {G : Type v} [AddCommGroup G]

/-- The sum over a list, by multiplicities. -/
theorem sum_map_by_count {U : Finset α} (f : α → G) (h : ∀ a ∈ l, a ∈ U) :
    (l.map f).sum = ∑ a ∈ U, l.count a • f a := by
  rw [Finset.sum_list_map_count]
  refine Finset.sum_subset (fun a ha => h a (List.mem_toFinset.mp ha)) fun a _ hnot => ?_
  rw [List.count_eq_zero_of_not_mem fun hmem => hnot (List.mem_toFinset.mpr hmem), zero_nsmul]

/-- The sums over two lists differ by what one of them holds more often. -/
theorem sum_sub_sum (l l' : List α) (f : α → G) :
    (l.map f).sum - (l'.map f).sum =
      ∑ a ∈ differing l l', ((l.count a : Int) - l'.count a) • f a := by
  have hl : ∀ a ∈ l, a ∈ (l ++ l').toFinset := by simp +contextual
  have hl' : ∀ a ∈ l', a ∈ (l ++ l').toFinset := by simp +contextual
  have hsub : differing l l' ⊆ (l ++ l').toFinset := by
    intro a ha
    rcases Finset.mem_union.mp ha with ha | ha
    · exact hl a (surplus_subset l l' (List.mem_toFinset.mp ha))
    · exact hl' a (surplus_subset l' l (List.mem_toFinset.mp ha))
  rw [sum_map_by_count f hl, sum_map_by_count f hl', ← Finset.sum_sub_distrib]
  refine Eq.trans (Finset.sum_congr rfl fun a _ => ?_)
    (Finset.sum_subset hsub fun a _ ha => ?_).symm
  · rw [sub_zsmul, natCast_zsmul, natCast_zsmul, sub_eq_add_neg]
  · rw [mem_differing, not_not] at ha
    rw [ha, sub_self, zero_zsmul]

/-- The sums over lists that differ alike do. -/
theorem sum_sub_sum_congr {k k' : List α}
    (h : ∀ a, (l.count a : Int) - l'.count a = k.count a - k'.count a) (f : α → G) :
    (l.map f).sum - (l'.map f).sum = (k.map f).sum - (k'.map f).sum := by
  have hsame : differing l l' = differing k k' := by
    ext a
    rw [mem_differing, mem_differing]
    have ha := h a
    omega
  rw [sum_sub_sum, sum_sub_sum, hsame]
  exact Finset.sum_congr rfl fun a _ => by rw [h a]

/-- The sums over balanced lists differ by those over their surpluses. -/
theorem EvenlyHeld.sum_sub_sum (h : EvenlyHeld l l') (f : α → G) :
    (l.map f).sum - (l'.map f).sum =
      ((surplus l l').map f).sum - ((surplus l' l).map f).sum := by
  rw [Lib.sum_sub_sum, differing, Finset.sum_union (disjoint_surplus l l'), sub_eq_add_neg,
    ← List.sum_toFinset f (nodup_surplus l l'), ← List.sum_toFinset f (nodup_surplus l' l),
    ← Finset.sum_neg_distrib]
  refine congrArg₂ (· + ·) (Finset.sum_congr rfl fun a ha => ?_)
    (Finset.sum_congr rfl fun a ha => ?_)
  · have hlt := mem_surplus.mp (List.mem_toFinset.mp ha)
    have hone : (l.count a : Int) - l'.count a = 1 := by
      have hle := (h a).1
      omega
    rw [hone, one_zsmul]
  · have hlt := mem_surplus.mp (List.mem_toFinset.mp ha)
    have hone : (l.count a : Int) - l'.count a = -1 := by
      have hle := (h a).2
      omega
    rw [hone, neg_one_zsmul]

end Surplus

end Lib
end Peerbit
