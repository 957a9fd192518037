import Mathlib.Data.Finset.Card
import Mathlib.Order.Interval.Finset.Nat

/-!
# Arcs of a ring

The ring has the points `0, …, max - 1`.  An arc starts at an offset and runs
over the end of the ring when it is long enough.  This module is about which
points an arc has, in one segment or in two, and how many.
-/

namespace Peerbit
namespace Lib

/-- The points that come less than `width` steps after `offset`. -/
def arc (max offset width : Nat) : Finset Nat :=
  (Finset.range max).filter (fun p => ((p : Int) - offset) % max < width)

section Arcs

variable {max offset width p : Nat}

theorem mem_arc : p ∈ arc max offset width ↔
    p < max ∧ ((p : Int) - offset) % max < width := by
  rw [arc, Finset.mem_filter, Finset.mem_range]

/-- How far a point comes after the offset. -/
theorem sub_emod (hp : p < max) (hoffset : offset ≤ max) :
    ((p : Int) - offset) % max =
      if offset ≤ p then (p : Int) - offset else (p : Int) - offset + max := by
  split
  · exact Int.emod_eq_of_lt (by omega) (by omega)
  · rw [← Int.add_emod_right]
    exact Int.emod_eq_of_lt (by omega) (by omega)

/-- An arc of one segment. -/
theorem mem_arc_of_le (h : offset + width ≤ max) :
    p ∈ arc max offset width ↔ offset ≤ p ∧ p < offset + width := by
  rw [mem_arc]
  constructor
  · rintro ⟨hp, hlt⟩
    rw [sub_emod hp (by omega)] at hlt
    split at hlt <;> omega
  · rintro ⟨hle, hlt⟩
    have hp : p < max := by omega
    refine ⟨hp, ?_⟩
    rw [sub_emod hp (by omega), if_pos hle]
    omega

/-- An arc that runs over the end of the ring. -/
theorem mem_arc_of_gt (hoffset : offset ≤ max) (h : max < offset + width) :
    p ∈ arc max offset width ↔ p < max ∧ (offset ≤ p ∨ p < offset + width - max) := by
  rw [mem_arc]
  refine and_congr_right fun hp => ?_
  rw [sub_emod hp hoffset]
  split <;> omega

/-- The two segments of an arc that runs over the end of the ring. -/
theorem arc_of_gt (hoffset : offset ≤ max) (hwidth : width ≤ max)
    (h : max < offset + width) :
    arc max offset width =
      Finset.Ico offset max ∪ Finset.Ico 0 (offset + width - max) := by
  ext p
  rw [mem_arc_of_gt hoffset h, Finset.mem_union, Finset.mem_Ico, Finset.mem_Ico]
  omega

theorem arc_of_le (h : offset + width ≤ max) :
    arc max offset width = Finset.Ico offset (offset + width) := by
  ext p
  rw [mem_arc_of_le h, Finset.mem_Ico]

/-- An arc has as many points as it is wide. -/
theorem card_arc (hoffset : offset ≤ max) (hwidth : width ≤ max) :
    (arc max offset width).card = width := by
  rcases Nat.lt_or_ge max (offset + width) with h | h
  · have hdisjoint : Disjoint (Finset.Ico offset max)
        (Finset.Ico 0 (offset + width - max)) := by
      rw [Finset.disjoint_left]
      intro p hp hp'
      rw [Finset.mem_Ico] at hp hp'
      omega
    rw [arc_of_gt hoffset hwidth h, Finset.card_union_of_disjoint hdisjoint,
      Nat.card_Ico, Nat.card_Ico]
    omega
  · rw [arc_of_le h, Nat.card_Ico]
    omega

end Arcs

end Lib
end Peerbit
